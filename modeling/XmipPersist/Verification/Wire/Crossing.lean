import XmipPersist.Library.Octets
import XmipPersist.Verification.Wire.Frames

/-! # What crosses the wire comes back as it was -/

namespace XmipPersist.Wire

/-- Of whatever is asked, answered and shipped, each part fit for its place on the wire, the bytes
are read back whole: a frame to a standby only of a database there is. -/
theorem comes_back (p : Primitives) (x : Secrets) (request : Request x) (answer : Answer x)
    (shipped : Shipped) (hrequest : request.writeForm Sink.fits)
    (hanswer : answer.writeForm Sink.fits) (hshipped : shipped.writeForm Sink.fits)
    (hnumbered : shipped.Numbered) :
    p.fromBytes (Request.readForm p) (request.writeForm p.sink) = .ok request ∧
      p.fromBytes (Answer.readForm p) (answer.writeForm p.sink) = .ok answer ∧
      p.fromBytes (Shipped.readForm p) (shipped.writeForm p.sink) = .ok shipped := by
  have hreads := Request.forms (p := p) request hrequest []
  have hanswers := Answer.forms (p := p) answer hanswer []
  have hships := Shipped.back (p := p) hshipped hnumbered []
  rw [List.append_nil] at hreads hanswers hships
  exact ⟨p.fromBytes_ok _ _ _ hreads, p.fromBytes_ok _ _ _ hanswers, p.fromBytes_ok _ _ _ hships⟩

/-- Passwords, each of a name that is not empty. -/
def passwords : Secrets where
  Name := { name : String // name ≠ "" }
  SecretKind := Unit
  Secret := { name : String // name ≠ "" } × Bytes
  asStr name := name.val
  newName text := if h : text ≠ "" then .ok ⟨text, h⟩ else .error "no name"
  word _ := "password"
  named word := if word = "password" then some () else none
  name secret := secret.1
  secretKind _ := ()
  value secret := secret.2
  newSecret name _ value := .ok (name, value)
  newName_asStr name := dif_pos name.property
  named_word _ := rfl
  newSecret_parts _ := rfl

theorem partner_ne : "partner" ≠ "" := by decide

/-- A partner's password, set by an administrator. -/
def partner : SecretRecord passwords where
  id := 3
  secret := (⟨"partner", partner_ne⟩, [7, 8])
  setUnixNanos := 5
  setBy := "admin"

/-- An entry set and one taken away, in the third database. -/
def moved : Shipped := .copy 2 7 [([1], some [2, 3]), ([4], none)]

theorem comes_back_set :
    Octets.primitives.fromBytes (Request.readForm Octets.primitives)
        ((Request.writeSecret partner).writeForm Octets.primitives.sink) =
      .ok (.writeSecret partner) ∧
    Octets.primitives.fromBytes (Answer.readForm Octets.primitives)
        ((Answer.secret (some partner)).writeForm Octets.primitives.sink) =
      .ok (.secret (some partner)) ∧
    Octets.primitives.fromBytes (Shipped.readForm Octets.primitives)
        (moved.writeForm Octets.primitives.sink) = .ok moved := by
  have hpartner : partner.writeForm Sink.fits := by
    have hname : "partner".utf8ByteSize < 2 ^ 32 := by decide
    have hkind : "password".utf8ByteSize < 2 ^ 32 := by decide
    have hset : "admin".utf8ByteSize < 2 ^ 32 := by decide
    simp only [SecretRecord.writeForm, writeKind, Sink.fits_all, List.forall_mem_cons]
    refine ⟨?_, hname, hkind, ?_, ?_, hset, by simp⟩ <;> simp [Sink.fits, partner, passwords]
  refine comes_back Octets.primitives passwords _ _ _ ?_ ?_ ?_ ?_
  · simp [Request.writeForm, Request.writeLate, hpartner]
    simp [Sink.fits]
  · simp [Answer.writeForm, Answer.writeLate, hpartner, Sink.optional, Sink.flag]
    simp [Sink.fits]
  · simp [moved, Shipped.writeForm, writeChange, Sink.each, Sink.optional, Sink.flag, Sink.fits]
  · rintro database hdatabase
    obtain rfl := Option.mem_some.mp hdatabase
    decide

/-- A frame of a database there is not is not read back. -/
theorem fourth_refused :
    ¬ Octets.primitives.fromBytes (Shipped.readForm Octets.primitives)
        ((Shipped.copied 3 0).writeForm Octets.primitives.sink) = .ok (.copied 3 0) := by
  decide

end XmipPersist.Wire

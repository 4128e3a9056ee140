import XmipPersist.Model.Remote
import XmipPersist.Verification.Wire.Crossing

/-! # An operation asked of a Storage node gives what it gives where it is called

Its request and its answer cross as they were, so what an operation gives comes back the same. A
failure comes back as one of three, and its caller decides by it as by the one it was, but for the
ones that say whether bytes are evidence and whether a secret may be read yet.
-/

namespace XmipPersist.Wire

variable {x : Secrets} {σ α : Type}

/-! ## What is asked -/

inductive Caller
  | chunks
  | secrets
  | others

/-- A reader of a Stream's chunks, a node that presents a secret, and every other. -/
def Operation.caller : Operation x α → Caller
  | readChunk _ _ => .chunks
  | readKeptAuditChunk _ _ _ => .chunks
  | readSecret _ => .secrets
  | _ => .others

namespace Caller

/-- Two failures a caller decides the same by. -/
def Alike : Caller → PersistError → PersistError → Prop
  | chunks, error, other => (ReadError.unread error).kind = (ReadError.unread other).kind
  | secrets, error, other => (Failure.of error).isRetryable = (Failure.of other).isRetryable
  | others, _, _ => True

/-- A failure that a Storage node does not tell its client apart from any other. -/
def Loses : Caller → PersistError → Prop
  | chunks, .record _ => True
  | secrets, .engine _ _ => True
  | secrets, .unreachable _ => True
  | _, _ => False

end Caller

namespace Operation

/-- What an operation gave once its caller waited for it to be durable. -/
def settled : Operation x α → Except PersistError α → Except PersistError α
  | publish _, given => do
      let (held, durable) ← given
      durable.wait.map fun _ => (held, .kept)
  | _, given => given

/-- What an operation gave and what it gave otherwise asked: the same value, or two failures its
caller decides the same by. -/
def Same (operation : Operation x α) : Except PersistError α → Except PersistError α → Prop
  | .ok given, .ok other => given = other
  | .error error, .error other => operation.caller.Alike error other
  | _, _ => False

/-- A lease below 2^64 nanoseconds, and a chunk's size of a word. -/
def Bounded : Operation x α → Prop
  | claim _ _ _ lease => lease < 2 ^ 64
  | renew _ lease => lease < 2 ^ 64
  | keepAudit _ chunk => chunk < 2 ^ 64
  | _ => True

/-- A frame holds an operation's request and its answer, each part of its width. -/
structure Held (client : StorageClient x) (storage : XmipStorage x σ) (operation : Operation x α)
    (s : σ) : Prop where
  bounded : operation.Bounded
  request : operation.request.writeForm Sink.fits
  requestFrame : (operation.request.writeForm client.primitives.sink).length ≤ client.frame
  answer : (Wire.answer storage operation.request s).1.writeForm Sink.fits
  answerFrame :
    ((Wire.answer storage operation.request s).1.writeForm client.primitives.sink).length ≤
      client.frame

end Operation

/-- An operation asked of a Storage node leaves and gives what it does where it is called. -/
structure Crosses (client : StorageClient x) (storage : XmipStorage x σ) (operation : Operation x α)
    (s : σ) : Prop where
  leaves : ((client.over' storage).call operation s).2 = (storage.call operation s).2
  gives : operation.Same (operation.settled (storage.call operation s).1)
    (operation.settled ((client.over' storage).call operation s).1)

/-! ## The request and the answer -/

namespace Operation

def said : Operation x α → α → Answer x
  | writeChunk _, _ => .done
  | readChunk _ _, found => .chunk found
  | writeStream _ _, _ => .done
  | readStream _, found => .stream found
  | writeMessage _, _ => .done
  | readMessage _, found => .message found
  | writeJourney _, _ => .done
  | readJourney _, found => .journey found
  | publish _, (held, _) => .claims held
  | readHeld _ _ _, found => .held found
  | readFailed _ _ _, found => .failedQueue found
  | readDue _ _ _ _, found => .dueQueue found
  | readDead _ _ _, found => .deadQueue found
  | readDeadMessage _ _, found => .dead found
  | replay _, came => .replayed came
  | claim _ _ _ _, held => .claim held
  | renew _ _, held => .claims held
  | release _, yes => .yes yes
  | handOn _, yes => .yes yes
  | turn _, yes => .yes yes
  | readInstance _, found => .instance' found
  | readInstanceKey _, found => .records found.toList
  | writeAudit _, _ => .done
  | keepAudit _ _, count => .count count
  | readKeptAudit _, found => .audit found
  | readKeptAuditStream _ _, found => .stream found
  | readKeptAuditChunk _ _ _, found => .bytes found
  | writeAdministration _, _ => .done
  | readAdministration _ _, found => .administration found
  | removeAdministration _ _, _ => .done
  | writeSecret _, _ => .done
  | readSecret _, found => .secret found
  | listSecrets, entries => .secrets entries
  | query _, found => .records found

def toAnswer (operation : Operation x α) : Except PersistError α → Answer x
  | .ok given => operation.said given
  | .error error => unanswered error

end Operation

theorem XmipStorage.told_ok (storage : XmipStorage x σ) (operation : Operation x α) (s : σ) :
    storage.told operation (fun given => .ok (operation.said given)) s =
      (operation.toAnswer (storage.call operation s).1, (storage.call operation s).2) := by
  unfold told
  rcases storage.call operation s with ⟨given, s⟩
  cases given <;> rfl

theorem answer_request (storage : XmipStorage x σ) {operation : Operation x α}
    (h : operation.Bounded) (s : σ) :
    answer storage operation.request s =
      (operation.toAnswer (operation.settled (storage.call operation s).1),
        (storage.call operation s).2) := by
  cases operation with
  | publish asked =>
      change storage.told (.publish asked) _ s = _
      unfold XmipStorage.told
      rcases storage.call (.publish asked) s with ⟨given, s⟩
      cases given with
      | error error => rfl
      | ok given =>
          obtain ⟨held, ⟨wait⟩⟩ := given
          cases wait <;> rfl
  | claim journey holder token lease =>
      have hlease : Operation.nanos lease = lease :=
        Nat.min_eq_left (Nat.le_sub_one_of_lt h)
      simp only [Operation.request, hlease]
      exact storage.told_ok _ s
  | renew claims lease =>
      have hlease : Operation.nanos lease = lease :=
        Nat.min_eq_left (Nat.le_sub_one_of_lt h)
      simp only [Operation.request, hlease]
      exact storage.told_ok _ s
  | keepAudit most chunk =>
      simp only [Operation.request, Nat.mod_eq_of_lt h]
      exact storage.told_ok _ s
  | _ => exact storage.told_ok _ s

/-! ## What comes back -/

namespace StorageClient

variable (client : StorageClient x) (storage : XmipStorage x σ)

/-- The failure a failure comes back as. -/
def crossed : PersistError → PersistError
  | .refused scope reason => .refused scope reason
  | .standby reason => client.unreachable reason
  | other => .failed other.toText

theorem carried_ok {β : Type} {bytes : Bytes} {read : Cursor β} {value : β}
    (hframe : bytes.length ≤ client.frame) (h : read.run bytes = .ok (value, [])) :
    client.carried bytes read = some value := by
  rw [carried, if_pos hframe, client.primitives.fromBytes_ok read bytes value h]
  rfl

variable {client storage} {operation : Operation x α} {s : σ}

theorem exchange_ok (h : operation.Held client storage s) :
    client.exchange storage operation.request s =
      (some (answer storage operation.request s).1, (answer storage operation.request s).2) := by
  have hrequest := Request.forms (p := client.primitives) _ h.request []
  have hanswer := Answer.forms (p := client.primitives) _ h.answer []
  rw [List.append_nil] at hrequest hanswer
  rw [exchange, client.carried_ok h.requestFrame hrequest]
  simp only [client.carried_ok h.answerFrame hanswer]

theorem expected_said {outcome : Except PersistError α} {given : α}
    (h : operation.settled outcome = .ok given) :
    client.expected operation (operation.said given) = .ok given := by
  cases operation with
  | publish asked =>
      -- a Publication waited for is durable already, as the client answers it
      cases outcome with
      | error error => cases h
      | ok first =>
          obtain ⟨held, ⟨wait⟩⟩ := first
          cases wait with
          | error error => cases h
          | ok done =>
              cases h
              rfl
  | readInstanceKey id => cases given <;> rfl
  | _ => rfl

theorem ask_said {given : α} {answered : Answer x} (hanswered : answered = operation.said given)
    {s' : σ} (h : client.exchange storage operation.request s = (some answered, s')) :
    client.ask storage operation.request s = (.ok answered, s') := by
  subst hanswered
  rw [ask, h]
  cases operation <;> rfl

/-- What an operation gives asked of a Storage node: what it gave there, once durable, and its
failure as it came back. -/
theorem over_call (h : operation.Held client storage s) :
    (client.over' storage).call operation s =
      ((operation.settled (storage.call operation s).1).mapError client.crossed,
        (storage.call operation s).2) := by
  have hanswer := answer_request storage h.bounded s
  have hexchange := exchange_ok h
  rw [hanswer] at hexchange
  cases hsettled : operation.settled (storage.call operation s).1 with
  | ok given =>
      rw [hsettled] at hexchange
      have hask := ask_said rfl hexchange
      simp only [over', hask]
      change (client.expected operation (operation.said given), _) = _
      rw [expected_said hsettled]
      rfl
  | error error =>
      rw [hsettled] at hexchange
      simp only [over', ask, hexchange]
      cases error <;> rfl

end StorageClient

/-! ## What its caller decides -/

/-- A caller decides by a failure that came back as by the one it was, but where it is one a Storage
node does not tell apart. -/
theorem Caller.alike_crossed (client : StorageClient x) (caller : Caller) (error : PersistError) :
    caller.Alike error (client.crossed error) ↔ ¬caller.Loses error := by
  cases caller <;> cases error <;>
    simp [Alike, Loses, StorageClient.crossed, StorageClient.unreachable, ReadError.kind,
      Failure.of, Failure.isRetryable]

namespace Operation

variable {operation : Operation x α}

theorem settled_settled (tell : PersistError → PersistError) (outcome : Except PersistError α) :
    operation.settled ((operation.settled outcome).mapError tell) =
      (operation.settled outcome).mapError tell := by
  cases operation with
  | publish asked =>
      cases outcome with
      | error error => rfl
      | ok given =>
          obtain ⟨held, ⟨wait⟩⟩ := given
          cases wait <;> rfl
  | _ => rfl

theorem settled_of_loses {error : PersistError} (h : operation.caller.Loses error)
    (outcome : Except PersistError α) : operation.settled outcome = outcome := by
  cases operation with
  | publish asked => exact h.elim
  | _ => rfl

end Operation

/-- An operation asked of a Storage node, its request and its answer held by a frame, leaves and
gives what it does where it is called exactly where it does not fail there as no Storage node tells
its client apart: a chunk's read with a record that does not decode, and a secret's with its engine
or a Storage node that was not reached. -/
theorem crosses_iff {client : StorageClient x} {storage : XmipStorage x σ}
    {operation : Operation x α} {s : σ} (h : operation.Held client storage s) :
    Crosses client storage operation s ↔
      ∀ error, (storage.call operation s).1 = .error error → ¬operation.caller.Loses error := by
  have hover := StorageClient.over_call h
  have hgives : operation.Same (operation.settled (storage.call operation s).1)
      (operation.settled ((client.over' storage).call operation s).1) ↔
        ∀ error, operation.settled (storage.call operation s).1 = .error error →
          ¬operation.caller.Loses error := by
    rw [hover, Operation.settled_settled]
    cases operation.settled (storage.call operation s).1 with
    | ok given => simp [Except.mapError, Operation.Same]
    | error error => simp [Except.mapError, Operation.Same, Caller.alike_crossed]
  constructor
  · intro hcrosses error herror hloses
    refine hgives.mp hcrosses.gives error ?_ hloses
    rw [Operation.settled_of_loses hloses, herror]
  · intro hnot
    refine ⟨by rw [hover], hgives.mpr fun error herror hloses => hnot error ?_ hloses⟩
    rwa [Operation.settled_of_loses hloses] at herror

/-! ## The callers -/

section Callers

variable {client : StorageClient x} {storage : XmipStorage x σ} {s : σ}

/-- A node presents the same secret, or is refused it with the same hope of it. -/
theorem Crosses.secret {name : x.Name} (h : Crosses client storage (.readSecret name) s) :
    match (storage.secret name s).1, ((client.over' storage).secret name s).1 with
    | .ok given, .ok other => given = other
    | .error failure, .error other => failure.isRetryable = other.isRetryable
    | _, _ => False := by
  have hgives := h.gives
  simp only [Operation.settled] at hgives
  simp only [XmipStorage.secret]
  cases hdirect : (storage.call (.readSecret name) s).1 <;>
    cases hover : ((client.over' storage).call (.readSecret name) s).1 <;>
    rw [hdirect, hover] at hgives
  · exact hgives
  · exact hgives.elim
  · exact hgives.elim
  · change _ = _ at hgives
    rw [hgives]
    rfl

theorem Crosses.nextChunk {sha : Bytes → Bytes} {stream : ℕ} {r : ChunkReader}
    (h : Crosses client storage (.readChunk stream r.next) s) :
    let ask (storage : XmipStorage x σ) (index : ℕ) : Except PersistError (Option Bytes) :=
      (storage.call (.readChunk stream index) s).1.map fun found => found.map StreamChunk.bytes
    let direct := r.nextChunk sha (ask storage)
    let remote := r.nextChunk sha (ask (client.over' storage))
    remote.2 = direct.2 ∧
      match direct.1, remote.1 with
      | .ok given, .ok other => given = other
      | .error error, .error other => error.kind = other.kind
      | _, _ => False := by
  have hgives := h.gives
  simp only [Operation.settled] at hgives
  simp only [ChunkReader.nextChunk]
  cases hdirect : (storage.call (.readChunk stream r.next) s).1 <;>
    cases hover : ((client.over' storage).call (.readChunk stream r.next) s).1 <;>
    rw [hdirect, hover] at hgives
  · split
    · exact ⟨rfl, rfl⟩
    · split
      · exact ⟨rfl, rfl⟩
      · exact ⟨rfl, hgives⟩
  · exact hgives.elim
  · exact hgives.elim
  · change _ = _ at hgives
    rw [hgives]
    have hsame : ∀ outcome : Except ReadError (Option Bytes),
        match outcome, outcome with
        | .ok given, .ok other => given = other
        | .error error, .error other => error.kind = other.kind
        | _, _ => False := fun outcome => by cases outcome <;> rfl
    exact ⟨rfl, hsame _⟩

end Callers

def failing (error : PersistError) : XmipStorage passwords Unit where
  call _ s := (.error error, s)

def alone : StorageClient passwords where
  primitives := Octets.primitives
  frame := 2 ^ 32 - 1
  address := "storage:1"
  debug _ := "another answer"
  lost := "the connection ended"

def partnerName : passwords.Name := (⟨"partner", partner_ne⟩ : { name : String // name ≠ "" })

theorem failing_held {α : Type} {operation : Operation passwords α} {error : PersistError}
    (answered : Answer passwords) (hbounded : operation.Bounded)
    (hrequest : operation.request.writeForm Sink.fits)
    (hframe : (operation.request.writeForm Octets.primitives.sink).length ≤ 2 ^ 32 - 1)
    (hanswer : (answer (failing error) operation.request ()).1 = answered)
    (hfits : answered.writeForm Sink.fits)
    (hanswerFrame : (answered.writeForm Octets.primitives.sink).length ≤ 2 ^ 32 - 1) :
    operation.Held alone (failing error) () := by
  subst hanswer
  exact ⟨hbounded, hrequest, hframe, hfits, hanswerFrame⟩

theorem failed_fits {reason : String} (h : reason.utf8ByteSize < 2 ^ 32) :
    (Answer.failed reason : Answer passwords).writeForm Sink.fits := by
  have hbyte : 10 < 2 ^ 8 := by decide
  simp only [Answer.writeForm, Sink.fits_all, List.forall_mem_cons]
  exact ⟨hbyte, h, by simp⟩

/-- A chunk that fails its tag is refused, and comes back so. -/
theorem crosses_refused :
    (Operation.readChunk 7 0).Held alone (failing (.refused "chunk" "its tag")) () ∧
      Crosses alone (failing (.refused "chunk" "its tag")) (.readChunk 7 0) () := by
  have hheld : (Operation.readChunk 7 0).Held alone (failing (.refused "chunk" "its tag")) () := by
    have hbyte : 9 < 2 ^ 8 := by decide
    have hscope : "chunk".utf8ByteSize < 2 ^ 32 := by decide
    have hreason : "its tag".utf8ByteSize < 2 ^ 32 := by decide
    refine failing_held (.refused "chunk" "its tag") trivial ?_ ?_ rfl ?_ ?_
    · simp [Operation.request, Request.writeForm, Sink.fits]
    · decide +kernel
    · simp only [Answer.writeForm, Sink.fits_all, List.forall_mem_cons]
      exact ⟨hbyte, hscope, hreason, by simp⟩
    · decide +kernel
  refine ⟨hheld, (crosses_iff hheld).mpr fun error herror hloses => ?_⟩
  cases herror
  exact hloses

/-- A chunk that does not decode comes back as a Storage node that could not answer, and a secret
whose engine could not read as one that is not to be read again. -/
theorem evidence_lost :
    ((Operation.readChunk 7 0).Held alone (failing (.record "no chunk")) () ∧
        ¬Crosses alone (failing (.record "no chunk")) (.readChunk 7 0) ()) ∧
      (Operation.readSecret partnerName).Held alone (failing (.engine "rocksdb" "busy")) () ∧
        ¬Crosses alone (failing (.engine "rocksdb" "busy")) (.readSecret partnerName) () := by
  have hchunk : (Operation.readChunk 7 0).Held alone (failing (.record "no chunk")) () := by
    refine failing_held (.failed "record: no chunk") trivial ?_ ?_ rfl (failed_fits ?_) ?_
    · simp [Operation.request, Request.writeForm, Sink.fits]
    all_goals decide +kernel
  have hsecret : (Operation.readSecret partnerName).Held alone
      (failing (.engine "rocksdb" "busy")) () := by
    have hbyte : 35 < 2 ^ 8 := by decide
    have hname : "partner".utf8ByteSize < 2 ^ 32 := by decide
    refine failing_held (.failed "rocksdb: busy") trivial ?_ ?_ rfl (failed_fits ?_) ?_
    · simp only [Operation.request, Request.writeForm, Request.writeLate, Sink.fits_all,
        List.forall_mem_cons]
      exact ⟨hbyte, hname, by simp⟩
    all_goals decide +kernel
  refine ⟨⟨hchunk, fun hcrosses => ?_⟩, hsecret, fun hcrosses => ?_⟩
  · have hgives := hcrosses.gives
    rw [StorageClient.over_call hchunk] at hgives
    change ReadError.Kind.invalidData = ReadError.Kind.other at hgives
    cases hgives
  · have hgives := hcrosses.gives
    rw [StorageClient.over_call hsecret] at hgives
    change true = false at hgives
    cases hgives

end XmipPersist.Wire

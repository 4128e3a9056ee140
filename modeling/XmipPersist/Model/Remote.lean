import XmipPersist.Model.ChunkReader
import XmipPersist.Model.Wire

/-! # Xmip Storage's operations, and the same asked of a Storage node

An operation of Xmip Storage is called where its databases are, or asked of a Storage node that has
them: written as a request, read and called there, and what it gave written as an answer and read
back. A failure crosses as one of three answers.
-/

namespace XmipPersist.Wire

/-! ## The operations -/

/-- When a write answered before its sync is durable: what waiting for it comes to. -/
structure Durable where
  wait : Except PersistError Unit

/-- Durable already. -/
def Durable.kept : Durable := ⟨.ok ()⟩

/-- An operation of Xmip Storage with what it is asked with, over what it gives. A lease is in
nanoseconds. -/
inductive Operation (x : Secrets) : Type → Type
  | writeChunk (chunk : StreamChunk) : Operation x Unit
  | readChunk (stream index : ℕ) : Operation x (Option StreamChunk)
  | writeStream (last : StreamChunk) (stream : StreamRecord) : Operation x Unit
  | readStream (stream : ℕ) : Operation x (Option StreamRecord)
  | writeMessage (message : MessageRecord) : Operation x Unit
  | readMessage (message : ℕ) : Operation x (Option MessageRecord)
  | writeJourney (journey : JourneyRecord) : Operation x Unit
  | readJourney (journey : ℕ) : Operation x (Option JourneyRecord)
  | publish (publication : Publication) : Operation x (List XmipPersist.Claim × Durable)
  | readHeld (queue start most : ℕ) : Operation x HeldQueue
  | readFailed (queue start most : ℕ) : Operation x (Paged Failed)
  | readDue (queue : ℕ) (part : DuePart) (start : ℕ × ℕ) (most : ℕ) : Operation x DueQueue
  | readDead (queue start most : ℕ) : Operation x (Paged Dead)
  | readDeadMessage (queue message : ℕ) : Operation x DeadEntry
  | replay (replay : Replay) : Operation x Replayed
  | claim (journey : ℕ) (holder : String) (token lease : ℕ) :
      Operation x (Option XmipPersist.Claim)
  | renew (claims : List XmipPersist.Claim) (lease : ℕ) : Operation x (List XmipPersist.Claim)
  | release (claim : XmipPersist.Claim) : Operation x Bool
  | handOn (handOn : HandOn) : Operation x Bool
  | turn (turn : Turn) : Operation x Bool
  | readInstance (id : ℕ) : Operation x (Option InstanceRecord)
  | readInstanceKey (correlation : ℕ) : Operation x (Option ℕ)
  | writeAudit (entry : AuditEntry) : Operation x Unit
  | keepAudit (most chunk : ℕ) : Operation x ℕ
  | readKeptAudit (id : ℕ) : Operation x (Option KeptAudit)
  | readKeptAuditStream (id stream : ℕ) : Operation x (Option StreamRecord)
  | readKeptAuditChunk (id : ℕ) (stream : Option ℕ) (index : ℕ) : Operation x (Option Bytes)
  | writeAdministration (record : AdministrationRecord) : Operation x Unit
  | readAdministration (kind : AdministrationKind) (id : ℕ) :
      Operation x (Option AdministrationRecord)
  | removeAdministration (kind : AdministrationKind) (id : ℕ) : Operation x Unit
  | writeSecret (secret : SecretRecord x) : Operation x Unit
  | readSecret (name : x.Name) : Operation x (Option (SecretRecord x))
  | listSecrets : Operation x (List (SecretEntry x))
  | query (query : Query) : Operation x (List ℕ)

/-- Xmip Storage's operations over whatever is behind them: what each gives, and what it leaves. -/
structure XmipStorage (x : Secrets) (σ : Type) where
  call : {α : Type} → Operation x α → σ → Except PersistError α × σ

variable {x : Secrets} {σ α : Type}

/-! ## A Storage node's answers -/

/-- What an error is answered as. -/
def unanswered : PersistError → Answer x
  | .refused scope reason => .refused scope reason
  | .standby reason => .standby reason
  | other => .failed other.toText

/-- An operation called, and what it gave told as an answer. -/
def XmipStorage.told (storage : XmipStorage x σ) (operation : Operation x α)
    (said : α → Except PersistError (Answer x)) (s : σ) : Answer x × σ :=
  let (given, s) := storage.call operation s
  match given >>= said with
  | .ok answer => (answer, s)
  | .error error => (unanswered error, s)

/-- What a storage answers a request: the one place a request becomes a call of an operation. -/
def answer (storage : XmipStorage x σ) : Request x → σ → Answer x × σ
  | .writeChunk chunk => storage.told (.writeChunk chunk) fun _ => .ok .done
  | .readChunk stream index => storage.told (.readChunk stream index) fun found =>
      .ok (.chunk found)
  | .writeMessage message => storage.told (.writeMessage message) fun _ => .ok .done
  | .readMessage id => storage.told (.readMessage id) fun found => .ok (.message found)
  | .writeJourney journey => storage.told (.writeJourney journey) fun _ => .ok .done
  | .readJourney id => storage.told (.readJourney id) fun found => .ok (.journey found)
  | .claim asked lease =>
      storage.told (.claim asked.journey asked.holder asked.token lease) fun held =>
        .ok (.claim held)
  | .renew claims lease => storage.told (.renew claims lease) fun held => .ok (.claims held)
  | .release held => storage.told (.release held) fun yes => .ok (.yes yes)
  | .handOn asked => storage.told (.handOn asked) fun yes => .ok (.yes yes)
  | .turn asked => storage.told (.turn asked) fun yes => .ok (.yes yes)
  | .readInstance id => storage.told (.readInstance id) fun found => .ok (.instance' found)
  | .readInstanceKey id => storage.told (.readInstanceKey id) fun found =>
      .ok (.records found.toList)
  | .writeAudit entry => storage.told (.writeAudit entry) fun _ => .ok .done
  | .keepAudit most chunk => storage.told (.keepAudit most chunk) fun count => .ok (.count count)
  | .readKeptAudit id => storage.told (.readKeptAudit id) fun found => .ok (.audit found)
  | .writeAdministration record => storage.told (.writeAdministration record) fun _ => .ok .done
  | .readAdministration kind id => storage.told (.readAdministration kind id) fun found =>
      .ok (.administration found)
  | .removeAdministration kind id => storage.told (.removeAdministration kind id) fun _ =>
      .ok .done
  | .writeSecret secret => storage.told (.writeSecret secret) fun _ => .ok .done
  | .readSecret name => storage.told (.readSecret name) fun found => .ok (.secret found)
  | .listSecrets => storage.told .listSecrets fun entries => .ok (.secrets entries)
  -- answered once durable here
  | .publish asked => storage.told (.publish asked) fun (held, durable) =>
      durable.wait.map fun _ => .claims held
  | .readHeld queue start most => storage.told (.readHeld queue start most) fun found =>
      .ok (.held found)
  | .readDue queue part start most => storage.told (.readDue queue part start most) fun found =>
      .ok (.dueQueue found)
  | .readFailed queue start most => storage.told (.readFailed queue start most) fun found =>
      .ok (.failedQueue found)
  | .readDead queue start most => storage.told (.readDead queue start most) fun found =>
      .ok (.deadQueue found)
  | .readDeadMessage queue message => storage.told (.readDeadMessage queue message) fun found =>
      .ok (.dead found)
  | .replay asked => storage.told (.replay asked) fun came => .ok (.replayed came)
  | .query asked => storage.told (.query asked) fun found => .ok (.records found)
  | .writeStream last stream => storage.told (.writeStream last stream) fun _ => .ok .done
  | .readStream id => storage.told (.readStream id) fun found => .ok (.stream found)
  | .readKeptAuditStream id stream => storage.told (.readKeptAuditStream id stream) fun found =>
      .ok (.stream found)
  | .readKeptAuditChunk id stream index =>
      storage.told (.readKeptAuditChunk id stream index) fun found => .ok (.bytes found)
  | .standing => fun s => (.failed standingsOwn, s)
  | .follow _ => fun s => (.failed standingsOwn, s)
where
  standingsOwn : String :=
    (PersistError.failed "a Storage node's standing is its server's to answer").toText

/-! ## A client's requests -/

namespace Operation

/-- The nanoseconds of a lease, as a request has them. -/
def nanos (lease : ℕ) : ℕ := min lease u64Max

/-- The request an operation is asked by. -/
def request : Operation x α → Request x
  | writeChunk chunk => .writeChunk chunk
  | readChunk stream index => .readChunk stream index
  | writeStream last stream => .writeStream last stream
  | readStream stream => .readStream stream
  | writeMessage message => .writeMessage message
  | readMessage message => .readMessage message
  | writeJourney journey => .writeJourney journey
  | readJourney journey => .readJourney journey
  | publish publication => .publish publication
  | readHeld queue start most => .readHeld queue start most
  | readFailed queue start most => .readFailed queue start most
  | readDue queue part start most => .readDue queue part start most
  | readDead queue start most => .readDead queue start most
  | readDeadMessage queue message => .readDeadMessage queue message
  | replay asked => .replay asked
  | claim journey holder token lease =>
      .claim { journey, holder, token, untilUnixNanos := 0, fence := 0 } (nanos lease)
  | renew claims lease => .renew claims (nanos lease)
  | release held => .release held
  | handOn asked => .handOn asked
  | turn asked => .turn asked
  | readInstance id => .readInstance id
  | readInstanceKey correlation => .readInstanceKey correlation
  | writeAudit entry => .writeAudit entry
  | keepAudit most chunk => .keepAudit most (chunk % 2 ^ 64)
  | readKeptAudit id => .readKeptAudit id
  | readKeptAuditStream id stream => .readKeptAuditStream id stream
  | readKeptAuditChunk id stream index => .readKeptAuditChunk id stream index
  | writeAdministration record => .writeAdministration record
  | readAdministration kind id => .readAdministration kind id
  | removeAdministration kind id => .removeAdministration kind id
  | writeSecret secret => .writeSecret secret
  | readSecret name => .readSecret name
  | listSecrets => .listSecrets
  | query asked => .query asked

/-- What an operation takes from the answer it expected; none from any other one. -/
def take : Operation x α → Answer x → Option α
  | writeChunk _, .done => some ()
  | readChunk _ _, .chunk found => some found
  | writeStream _ _, .done => some ()
  | readStream _, .stream found => some found
  | writeMessage _, .done => some ()
  | readMessage _, .message found => some found
  | writeJourney _, .done => some ()
  | readJourney _, .journey found => some found
  | publish _, .claims held => some (held, .kept)
  | readHeld _ _ _, .held found => some found
  | readFailed _ _ _, .failedQueue found => some found
  | readDue _ _ _ _, .dueQueue found => some found
  | readDead _ _ _, .deadQueue found => some found
  | readDeadMessage _ _, .dead found => some found
  | replay _, .replayed came => some came
  | claim _ _ _ _, .claim held => some held
  | renew _ _, .claims held => some held
  | release _, .yes yes => some yes
  | handOn _, .yes yes => some yes
  | turn _, .yes yes => some yes
  | readInstance _, .instance' found => some found
  | readInstanceKey _, .records found => some found.head?
  | writeAudit _, .done => some ()
  | keepAudit _ _, .count count => some count
  | readKeptAudit _, .audit found => some found
  | readKeptAuditStream _ _, .stream found => some found
  | readKeptAuditChunk _ _ _, .bytes found => some found
  | writeAdministration _, .done => some ()
  | readAdministration _ _, .administration found => some found
  | removeAdministration _ _, .done => some ()
  | writeSecret _, .done => some ()
  | readSecret _, .secret found => some found
  | listSecrets, .secrets entries => some entries
  | query _, .records found => some found
  | _, _ => none

end Operation

/-- A client of one Storage node over a connection to it: how values are written, what a frame
holds, its address, whether a statement is pinned to it, and the words an answer that was not
expected and a connection that failed are told in. -/
structure StorageClient (x : Secrets) where
  primitives : Primitives
  frame : ℕ
  address : String
  pinned : Bool := false
  debug : Answer x → String
  lost : String

namespace StorageClient

variable (client : StorageClient x)

/-- What is written is read at the other end, where a frame holds it and it is a record. -/
def carried {β : Type} (bytes : Bytes) (read : Cursor β) : Option β :=
  if bytes.length ≤ client.frame then (client.primitives.fromBytes read bytes).toOption else none

/-- A request asked over the connection and its answer; none where either does not arrive. -/
def exchange (storage : XmipStorage x σ) (request : Request x) (s : σ) : Option (Answer x) × σ :=
  match client.carried (request.writeForm client.primitives.sink)
      (Request.readForm client.primitives) with
  | none => (none, s)
  | some request =>
      let (answered, s) := answer storage request s
      (client.carried (answered.writeForm client.primitives.sink)
        (Answer.readForm client.primitives), s)

/-- That no Storage node answered. -/
def unreachable (failure : String) : PersistError :=
  .unreachable (if client.pinned then
      "the statement's Storage node " ++ client.address ++ " did not answer: " ++ failure
    else "no Storage node answered: " ++ client.address ++ ": " ++ failure)

/-- The answer to a request; an answer that says its Storage node is a standby is none. -/
def ask (storage : XmipStorage x σ) (request : Request x) (s : σ) :
    Except PersistError (Answer x) × σ :=
  match client.exchange storage request s with
  | (none, s) => (.error (client.unreachable client.lost), s)
  | (some (.standby said), s) => (.error (client.unreachable said), s)
  | (some answered, s) => (.ok answered, s)

/-- The answer an operation expected, or why there was none. -/
def expected (operation : Operation x α) : Answer x → Except PersistError α
  | .refused scope reason => .error (.refused scope reason)
  | .failed reason => .error (.failed reason)
  | other =>
      match operation.take other with
      | some given => .ok given
      | none => .error (.record ("a Storage node answered " ++ client.debug other))

/-- Xmip Storage's operations, each asked of a Storage node that has `storage` behind it. -/
def over' (storage : XmipStorage x σ) : XmipStorage x σ where
  call operation s :=
    let (answered, s) := client.ask storage operation.request s
    (answered >>= client.expected operation, s)

end StorageClient

/-! ## What a failure is to its caller -/

/-- A secret that was not given: whether the next connection may find it. -/
inductive Failure
  | retryable (reason : String)
  | permanent (reason : String)
  deriving DecidableEq

namespace Failure

/-- Whether a secret that could not be read may be read yet: a Storage node was not reached, or
could not answer. -/
def of (error : PersistError) : Failure :=
  match error with
  | .unreachable _ | .standby _ | .engine _ _ => retryable error.toText
  | _ => permanent error.toText

def isRetryable : Failure → Bool
  | retryable _ => true
  | permanent _ => false

end Failure

/-- The secrets a node's Locations name, read from Xmip Storage as each connects. -/
def XmipStorage.secret (storage : XmipStorage x σ) (name : x.Name) (s : σ) :
    Except Failure (Option x.Secret) × σ :=
  let (found, s) := storage.call (.readSecret name) s
  ((found.map fun kept => kept.map SecretRecord.secret).mapError .of, s)

end XmipPersist.Wire

import Acetone.Serve.Handlers

/-!
# One connection

The request loop of a connection: read a frame as a request, let its handler
drain a payload and compose a reply, write the reply, go on.  A client that
keeps to the protocol gets its requests and replies paired exactly as long as
no import request lacks its format, which is refused with the payload still in
the stream, every import can be staged, every reply can be told within the frame
cap, and the daemon does not drain.
-/

namespace Acetone.Serve

open Acetone.Lib

def protocol : Nat := 1

/-- A frame from the peer: its announced length, and its document unless the
bytes are no JSON. -/
structure Inbound where
  length : Nat
  body : Option Json

/-- `read_frame`, on a frame that has arrived. -/
def readFrame (frame : Inbound) : Option Json :=
  if maxFrameBytes < frame.length then none else frame.body

def schemaApplyMaxBytes : Nat := 16 * 1024 * 1024

def importMaxBytes : Nat := 1024 * 1024 * 1024

/-- The cap on a payload; a positive setting overrides the default. -/
def payloadCap (setting : Option Nat) (default : Nat) : Nat :=
  match setting with
  | some bytes => if 0 < bytes then bytes else default
  | none => default

def isChunkEnd (document : Json) : Bool :=
  (document.get "chunk_end").bind Json.asBool = some true

def chunkText (document : Json) : Option String :=
  (document.get "chunk").bind Json.asStr

inductive Payload where
  | complete (text : String) (taken : Nat)
  | refused (error : Terminal)
  | unreadable

/-- Read chunks up to the end of the payload; `taken` counts the frames.  A chunk
that the sink does not take ends the connection without an answer. -/
def readPayload (sink : Nat → Bool) (cap : Nat) (text : String) (taken : Nat) :
    List Inbound → Payload
  | [] => .refused (.error "bad-request" "connection closed before chunk_end")
  | frame :: frames =>
      match readFrame frame with
      | none => .unreadable
      | some document =>
          if isChunkEnd document then .complete text (taken + 1)
          else
            match chunkText document with
            | none => .refused (.error "bad-request" "expected a chunk or chunk_end frame")
            | some chunk =>
                if cap < text.utf8ByteSize + chunk.utf8ByteSize then
                  .refused (.error "payload-too-large"
                    ("streamed payload exceeds the " ++ toString cap ++ "-byte cap"))
                else if ¬ sink taken then .unreadable
                else readPayload sink cap (text ++ chunk) (taken + 1) frames

/-- The machine beneath a connection, for the request at each place of its stream:
whether the daemon drains once it is served, whether the staging directory and file
of an import can be made, and which of its chunks can be written there. -/
structure Host where
  drains : Nat → Bool
  stages : Nat → Bool
  writes : Nat → Nat → Bool

structure Daemon (σ : Type) where
  backend : Backend σ
  wording : Wording
  payloadSetting : Option Nat
  host : Host

/-- What a handler does with its request: compose a reply after taking some
payload frames, or fail, perhaps with a last error frame. -/
inductive Handled (σ : Type) where
  | replied (reply : Reply) (taken : Nat) (next : σ)
  | failed (error : Option Terminal)

/-- A request as it was read, at its place in the stream, and the frames
written for it. -/
structure Served where
  position : Nat
  request : Json
  written : List Frame

inductive Ending where
  | endOfStream
  | closed
deriving DecidableEq

section Loop

variable {σ : Type} (daemon : Daemon σ)

def Daemon.schemaApplyCap : Nat := payloadCap daemon.payloadSetting schemaApplyMaxBytes

def Daemon.importCap : Nat := payloadCap daemon.payloadSetting importMaxBytes

def replying (taken : Nat) (state : σ) (run : StateM σ Reply) : Handled σ :=
  let answer := run.run state
  .replied answer.1 taken answer.2

def draining (sink : Nat → Bool) (cap : Nat) (inbound : List Inbound) (state : σ)
    (run : String → StateM σ Reply) : Handled σ :=
  match readPayload sink cap "" 0 inbound with
  | .complete text taken => replying taken state (run text)
  | .refused error => .failed (some error)
  | .unreadable => .failed none

/-- A document is read into memory, a source into a staging file. -/
def handle (position : Nat) (request : Json) (inbound : List Inbound) (state : σ) : Handled σ :=
  let verb := requestVerb request
  if verb = "schema-apply" then
    draining (fun _ => true) daemon.schemaApplyCap inbound state
      (runSchemaApply daemon.backend request)
  else if verb = "import" then
    match textParam request "format" with
    | none => .replied importWithoutFormat 0 state
    | some format =>
        if ¬ daemon.host.stages position then .failed none
        else draining (daemon.host.writes position) daemon.importCap inbound state
          (runImport daemon.backend request format)
  else replying 0 state (runPlain daemon.backend daemon.wording request verb)

/-- A payload violation is answered if the answer fits, and closes. -/
def lastFrames (id : Json) (error : Option Terminal) : List Frame :=
  (error.map fun error => (writeFrame daemon.wording.digits (.terminal id error)).written).getD []

/-- Once a request is served, a daemon that drains closes the connection. -/
def requestLoop (position : Nat) (state : σ) (inbound : List Inbound) : List Served × Ending :=
  match inbound with
  | [] => ([], .endOfStream)
  | frame :: frames =>
      match readFrame frame with
      | none => ([], .closed)
      | some request =>
          let id := requestId request
          match handle daemon position request frames state with
          | .failed error => ([⟨position, request, lastFrames daemon id error⟩], .closed)
          | .replied reply taken next =>
              let delivery := deliver daemon.wording.digits id reply.terminal reply.streamed
              if delivery.complete ∧ ¬ daemon.host.drains position then
                let rest := requestLoop (position + 1 + taken) next (frames.drop taken)
                (⟨position, request, delivery.written⟩ :: rest.1, rest.2)
              else ([⟨position, request, delivery.written⟩], .closed)
termination_by inbound.length
decreasing_by simp only [List.length_drop, List.length_cons]; omega

inductive Transcript where
  | noHello
  | protocolMismatch
  | session (served : List Served) (ending : Ending)

def peerProtocol (hello : Json) : Nat :=
  (((hello.get "acetone").bind (Json.get · "protocol")).bind Json.asU64).getD 0

/-- Both sides greet; then requests are read until the peer closes. -/
def connection (state : σ) : List Inbound → Transcript
  | [] => .noHello
  | frame :: inbound =>
      match readFrame frame with
      | none => .noHello
      | some hello =>
          if peerProtocol hello ≠ protocol then .protocolMismatch
          else
            let served := requestLoop daemon 0 state inbound
            .session served.1 served.2

end Loop

/-- A frame within the cap that holds a document. -/
structure Message where
  length : Nat
  document : Json
  bounded : length ≤ maxFrameBytes

def Message.inbound (message : Message) : Inbound := ⟨message.length, some message.document⟩

/-- A request with the frames the client sends after it. -/
structure Exchange where
  request : Message
  payload : List Message

def Exchange.frames (exchange : Exchange) : List Inbound :=
  exchange.request.inbound :: exchange.payload.map Message.inbound

def sent (script : List Exchange) : List Inbound := script.flatMap Exchange.frames

/-- Chunk frames within the cap, and a frame that ends them. -/
def StreamsWithin (cap : Nat) (payload : List Message) : Prop :=
  ∃ (chunks : List Message) (texts : List String) (last : Message),
    payload = chunks ++ [last] ∧
    (∀ chunk ∈ chunks, isChunkEnd chunk.document = false) ∧
    chunks.map (fun chunk => chunkText chunk.document) = texts.map some ∧
    (texts.map String.utf8ByteSize).sum ≤ cap ∧
    isChunkEnd last.document = true

section Client

variable {σ : Type} (daemon : Daemon σ)

/-- The payload that the request's verb asks for follows it, and no other. -/
def KeepsProtocol (exchange : Exchange) : Prop :=
  if requestVerb exchange.request.document = "schema-apply" then
    StreamsWithin daemon.schemaApplyCap exchange.payload
  else if requestVerb exchange.request.document = "import" then
    StreamsWithin daemon.importCap exchange.payload
  else exchange.payload = []

def located (position : Nat) : List Exchange → List (Nat × Exchange)
  | [] => []
  | exchange :: script =>
      (position, exchange) :: located (position + 1 + exchange.payload.length) script

/-- The exchange's request was read as one, and answered in full. -/
def Answered (exchange : Nat × Exchange) (served : Served) : Prop :=
  served.position = exchange.1 ∧ served.request = exchange.2.request.document ∧
    AnswersUnder (requestId served.request) served.written

/-- Each request, and nothing else, was served and answered, in order, and the
connection was open to the end. -/
def Paired (position : Nat) (script : List Exchange) (result : List Served × Ending) : Prop :=
  List.Forall₂ Answered (located position script) result.1 ∧ result.2 = .endOfStream

def payloadText (payload : List Message) : String :=
  (payload.filterMap fun message =>
    if isChunkEnd message.document then none else chunkText message.document).foldl (· ++ ·) ""

def respond (exchange : Exchange) : StateM σ Reply :=
  let request := exchange.request.document
  let text := payloadText exchange.payload
  if requestVerb request = "schema-apply" then runSchemaApply daemon.backend request text
  else if requestVerb request = "import" then
    match textParam request "format" with
    | none => pure importWithoutFormat
    | some format => runImport daemon.backend request format text
  else runPlain daemon.backend daemon.wording request (requestVerb request)

def LacksFormat (request : Json) : Prop :=
  requestVerb request = "import" ∧ textParam request "format" = none

/-- The source of an import can be staged, chunk by chunk up to the frame that ends it. -/
def Stageable (position : Nat) (exchange : Exchange) : Prop :=
  requestVerb exchange.request.document = "import" →
    daemon.host.stages position ∧
      ∀ chunk < exchange.payload.length - 1, daemon.host.writes position chunk

/-- No import lacks its format or cannot be staged, every reply is deliverable, and
the daemon does not drain. -/
def Clear (position : Nat) (state : σ) : List Exchange → Prop
  | [] => True
  | exchange :: script =>
      let answer := (respond daemon exchange).run state
      ¬ LacksFormat exchange.request.document ∧ Stageable daemon position exchange ∧
        Deliverable daemon.wording.digits (requestId exchange.request.document) answer.1 ∧
        ¬ daemon.host.drains position ∧
        Clear (position + 1 + exchange.payload.length) answer.2 script

end Client

section Pairing

variable {σ : Type} {daemon : Daemon σ} {state : σ}

theorem readFrame_inbound (message : Message) :
    readFrame message.inbound = some message.document :=
  if_neg (Nat.not_lt.mpr message.bounded)

/-- The chunks of a payload are read to its end and no further. -/
private theorem readPayload_chunks {sink : Nat → Bool} {cap taken : Nat} {text : String}
    {chunks : List Message}
    {texts : List String} {last : Message} {rest : List Inbound}
    (open_ : ∀ chunk ∈ chunks, isChunkEnd chunk.document = false)
    (reads : chunks.map (fun chunk => chunkText chunk.document) = texts.map some)
    (within : text.utf8ByteSize + (texts.map String.utf8ByteSize).sum ≤ cap)
    (ends : isChunkEnd last.document = true)
    (sinks : ∀ chunk < chunks.length, sink (taken + chunk)) :
    readPayload sink cap text taken ((chunks ++ [last]).map Message.inbound ++ rest) =
      .complete (texts.foldl (· ++ ·) text) (taken + (chunks ++ [last]).length) := by
  induction chunks generalizing text taken texts with
  | nil =>
      obtain rfl : texts = [] := by simpa using reads.symm
      simp [readPayload, readFrame_inbound, ends]
  | cons chunk chunks ih =>
      obtain ⟨notEnd, open_⟩ := List.forall_mem_cons.mp open_
      cases texts with
      | nil => cases reads
      | cons first texts =>
          rw [List.map_cons, List.map_cons, List.cons.injEq] at reads
          rw [List.map_cons, List.sum_cons] at within
          have room : ¬ cap < text.utf8ByteSize + first.utf8ByteSize := by omega
          rw [List.cons_append, List.map_cons, List.cons_append, readPayload,
            readFrame_inbound]
          have here : sink taken := sinks 0 (by simp)
          have later : ∀ chunk < chunks.length, sink (taken + 1 + chunk) := by
            intro chunk within
            have next := sinks (chunk + 1) (by simpa using within)
            rwa [show taken + (chunk + 1) = taken + 1 + chunk by omega] at next
          simp only [notEnd, Bool.false_eq_true, if_false, reads.1, if_neg room, here,
            not_true_eq_false]
          rw [ih open_ reads.2 (by rw [String.utf8ByteSize_append]; omega) later,
            List.foldl_cons, List.length_cons]
          congr 1
          omega

/-- A chunk of a payload that the sink does not take ends the reading of it. -/
private theorem readPayload_stuck {sink : Nat → Bool} {cap taken stuck : Nat} {text : String}
    {chunks : List Message} {texts : List String} {rest : List Inbound}
    (open_ : ∀ chunk ∈ chunks, isChunkEnd chunk.document = false)
    (reads : chunks.map (fun chunk => chunkText chunk.document) = texts.map some)
    (within : text.utf8ByteSize + (texts.map String.utf8ByteSize).sum ≤ cap)
    (inside : stuck < chunks.length) (sticks : ¬ sink (taken + stuck)) :
    readPayload sink cap text taken (chunks.map Message.inbound ++ rest) = .unreadable := by
  induction chunks generalizing text taken stuck texts with
  | nil => cases inside
  | cons chunk chunks ih =>
      obtain ⟨notEnd, open_⟩ := List.forall_mem_cons.mp open_
      cases texts with
      | nil => cases reads
      | cons first texts =>
          rw [List.map_cons, List.map_cons, List.cons.injEq] at reads
          rw [List.map_cons, List.sum_cons] at within
          have room : ¬ cap < text.utf8ByteSize + first.utf8ByteSize := by omega
          rw [List.map_cons, List.cons_append, readPayload, readFrame_inbound]
          simp only [notEnd, Bool.false_eq_true, if_false, reads.1, if_neg room]
          split
          · rfl
          · next here =>
              cases stuck with
              | zero => exact absurd sticks here
              | succ stuck =>
                  have below : stuck < chunks.length := by simpa using inside
                  refine ih open_ reads.2 (by rw [String.utf8ByteSize_append]; omega) below ?_
                  rwa [show taken + 1 + stuck = taken + (stuck + 1) by omega]

private theorem payloadText_chunks {chunks : List Message} {texts : List String} {last : Message}
    (open_ : ∀ chunk ∈ chunks, isChunkEnd chunk.document = false)
    (reads : chunks.map (fun chunk => chunkText chunk.document) = texts.map some)
    (ends : isChunkEnd last.document = true) :
    payloadText (chunks ++ [last]) = texts.foldl (· ++ ·) "" := by
  have found : chunks.filterMap (fun message =>
      if isChunkEnd message.document then none else chunkText message.document) = texts := by
    have same : chunks.filterMap (fun message =>
        if isChunkEnd message.document then none else chunkText message.document) =
          chunks.filterMap fun message => chunkText message.document := by
      apply List.filterMap_congr
      intro chunk isChunk
      rw [open_ chunk isChunk]
      rfl
    have joined := congrArg (List.filterMap id) reads
    rw [same]
    simpa [List.filterMap_map, Function.comp_def] using joined
  rw [payloadText, List.filterMap_append, found]
  simp [ends]

theorem draining_streams {sink : Nat → Bool} {cap : Nat} {payload : List Message}
    {rest : List Inbound} (streams : StreamsWithin cap payload)
    (sinks : ∀ chunk < payload.length - 1, sink chunk) (run : String → StateM σ Reply) :
    draining sink cap (payload.map Message.inbound ++ rest) state run =
      replying payload.length state (run (payloadText payload)) := by
  obtain ⟨chunks, texts, last, rfl, open_, reads, within, ends⟩ := streams
  have drained := @readPayload_chunks sink cap 0 "" chunks texts last rest open_ reads
    (by rw [String.utf8ByteSize_empty, Nat.zero_add]; exact within) ends
    (by simpa using sinks)
  rw [draining, drained, payloadText_chunks open_ reads ends]
  simp

theorem draining_stuck {sink : Nat → Bool} {cap : Nat} {payload : List Message}
    {rest : List Inbound} (streams : StreamsWithin cap payload)
    (sticks : ¬ ∀ chunk < payload.length - 1, sink chunk) (run : String → StateM σ Reply) :
    draining sink cap (payload.map Message.inbound ++ rest) state run = .failed none := by
  obtain ⟨chunks, texts, last, rfl, open_, reads, within, ends⟩ := streams
  obtain ⟨stuck, sticks⟩ := not_forall.mp sticks
  obtain ⟨inside, sticks⟩ := Classical.not_imp.mp sticks
  have stopped := @readPayload_stuck sink cap 0 stuck "" chunks texts
    (last.inbound :: rest) open_ reads
    (by rw [String.utf8ByteSize_empty, Nat.zero_add]; exact within) (by simpa using inside)
    (by rwa [Nat.zero_add])
  rw [draining, List.map_append, List.append_assoc, List.map_singleton, List.singleton_append,
    stopped]

/-- A handler of an exchange takes exactly its payload, unless it refuses
the format of an import or cannot stage it. -/
theorem handle_exchange {position : Nat} {exchange : Exchange} {rest : List Inbound}
    (keeps : KeepsProtocol daemon exchange) (formatted : ¬ LacksFormat exchange.request.document)
    (stageable : Stageable daemon position exchange) :
    handle daemon position exchange.request.document
        (exchange.payload.map Message.inbound ++ rest) state =
      replying exchange.payload.length state (respond daemon exchange) := by
  unfold KeepsProtocol at keeps
  unfold handle respond
  by_cases applies : requestVerb exchange.request.document = "schema-apply"
  · simp only [if_pos applies] at keeps ⊢
    exact draining_streams keeps (fun _ _ => rfl) _
  simp only [if_neg applies] at keeps ⊢
  by_cases imports : requestVerb exchange.request.document = "import"
  · obtain ⟨stages, writes⟩ := stageable imports
    simp only [if_pos imports] at keeps ⊢
    cases format : textParam exchange.request.document "format" with
    | none => exact absurd ⟨imports, format⟩ formatted
    | some format =>
        simp only [stages, not_true_eq_false, if_false]
        exact draining_streams keeps writes _
  · simp only [if_neg imports] at keeps ⊢
    rw [keeps]
    rfl

theorem handle_unstageable {position : Nat} {exchange : Exchange} {rest : List Inbound}
    (keeps : KeepsProtocol daemon exchange) (formatted : ¬ LacksFormat exchange.request.document)
    (unstageable : ¬ Stageable daemon position exchange) :
    handle daemon position exchange.request.document
        (exchange.payload.map Message.inbound ++ rest) state = .failed none := by
  obtain ⟨imports, unstaged⟩ := Classical.not_imp.mp unstageable
  have other : requestVerb exchange.request.document ≠ "schema-apply" := by
    rw [imports]
    decide
  unfold KeepsProtocol at keeps
  unfold handle
  simp only [if_neg other, if_pos imports] at keeps ⊢
  cases format : textParam exchange.request.document "format" with
  | none => exact absurd ⟨imports, format⟩ formatted
  | some format =>
      dsimp only
      split
      · rfl
      · next stages => exact draining_stuck keeps (fun writes => unstaged ⟨not_not.mp stages, writes⟩) _

theorem handle_lacksFormat {position : Nat} {request : Json} {inbound : List Inbound}
    (lacks : LacksFormat request) :
    handle daemon position request inbound state = .replied importWithoutFormat 0 state := by
  have other : requestVerb request ≠ "schema-apply" := by
    rw [lacks.1]
    decide
  unfold handle
  simp only [if_neg other, if_pos lacks.1, lacks.2]

theorem requestLoop_round {position taken : Nat} {message : Message} {frames : List Inbound}
    {reply : Reply} {next : σ}
    (handled : handle daemon position message.document frames state =
      .replied reply taken next) :
    requestLoop daemon position state (message.inbound :: frames) =
      let delivery := deliver daemon.wording.digits (requestId message.document) reply.terminal
        reply.streamed
      if delivery.complete ∧ ¬ daemon.host.drains position then
        let rest := requestLoop daemon (position + 1 + taken) next (frames.drop taken)
        (⟨position, message.document, delivery.written⟩ :: rest.1, rest.2)
      else ([⟨position, message.document, delivery.written⟩], .closed) := by
  rw [requestLoop, readFrame_inbound]
  simp only [handled]

/-- A loop that came to the end of the stream served the first frame in it. -/
theorem requestLoop_first {position : Nat} {frame : Inbound} {frames : List Inbound}
    (ends : (requestLoop daemon position state (frame :: frames)).2 = .endOfStream) :
    ∃ first served, (requestLoop daemon position state (frame :: frames)).1 = first :: served ∧
      first.position = position := by
  rw [requestLoop] at ends ⊢
  cases read : readFrame frame with
  | none =>
      rw [read] at ends
      cases ends
  | some request =>
      cases handled : handle daemon position request frames state with
      | failed error =>
          simp only [read, handled] at ends
          cases ends
      | replied reply taken next =>
          simp only [read, handled] at ends ⊢
          split at ends
          case isTrue complete =>
            rw [if_pos complete]
            exact ⟨_, _, rfl, rfl⟩
          case isFalse => cases ends

/-- After an import refused for its format the payload is read as requests. -/
private theorem not_paired_of_lacksFormat {position : Nat} {exchange : Exchange}
    {script : List Exchange} (keeps : KeepsProtocol daemon exchange)
    (lacks : LacksFormat exchange.request.document) :
    ¬ Paired position (exchange :: script)
      (requestLoop daemon position state (sent (exchange :: script))) := by
  have streams : StreamsWithin daemon.importCap exchange.payload := by
    unfold KeepsProtocol at keeps
    rwa [lacks.1, if_neg (by decide), if_pos rfl] at keeps
  obtain ⟨chunks, texts, last, isPayload, -⟩ := streams
  obtain ⟨first, payload, shown⟩ : ∃ first payload, exchange.payload = first :: payload := by
    cases chunks with
    | nil => exact ⟨last, [], isPayload⟩
    | cons chunk chunks => exact ⟨chunk, chunks ++ [last], isPayload⟩
  rintro ⟨answered, ends⟩
  have shape : sent (exchange :: script) = exchange.request.inbound ::
      (first.inbound :: (payload.map Message.inbound ++ sent script)) := by
    simp [sent, Exchange.frames, shown]
  rw [shape, requestLoop_round (handle_lacksFormat lacks)] at answered ends
  dsimp only at answered ends
  split at ends
  case isFalse => cases ends
  case isTrue complete =>
    rw [if_pos complete] at answered
    obtain ⟨wrong, served, isServed, isPosition⟩ := requestLoop_first ends
    rw [List.drop_zero] at answered
    rw [isServed, located, List.forall₂_cons] at answered
    cases script with
    | nil => cases answered.2
    | cons next script =>
        rw [located, List.forall₂_cons] at answered
        have same := answered.2.1.1
        rw [isPosition, shown, List.length_cons] at same
        omega

theorem paired_iff_clear {position : Nat} {script : List Exchange}
    (keeps : ∀ exchange ∈ script, KeepsProtocol daemon exchange) :
    Paired position script (requestLoop daemon position state (sent script)) ↔
      Clear daemon position state script := by
  induction script generalizing position state with
  | nil =>
      rw [sent, List.flatMap_nil, requestLoop]
      exact iff_of_true ⟨.nil, rfl⟩ trivial
  | cons exchange script ih =>
      obtain ⟨keeps, others⟩ := List.forall_mem_cons.mp keeps
      by_cases lacks : LacksFormat exchange.request.document
      · exact iff_of_false (not_paired_of_lacksFormat keeps lacks) fun clear => clear.1 lacks
      have shape : sent (exchange :: script) = exchange.request.inbound ::
          (exchange.payload.map Message.inbound ++ sent script) := by
        simp [sent, Exchange.frames]
      by_cases stageable : Stageable daemon position exchange
      case neg =>
        refine iff_of_false ?_ fun clear => stageable clear.2.1
        rintro ⟨-, ends⟩
        rw [shape, requestLoop, readFrame_inbound] at ends
        simp only [handle_unstageable keeps lacks stageable] at ends
        cases ends
      have round := @requestLoop_round σ daemon state position _ exchange.request _ _ _
        (@handle_exchange σ daemon state position exchange (sent script) keeps lacks stageable)
      rw [shape, round, Clear, ← deliver_complete_iff]
      dsimp only
      split
      case isFalse stops =>
        refine iff_of_false ?_ fun clear => stops ⟨clear.2.2.1, clear.2.2.2.1⟩
        rintro ⟨-, ends⟩
        cases ends
      case isTrue goesOn =>
        obtain ⟨complete, awake⟩ := goesOn
        have dropped : (exchange.payload.map Message.inbound ++ sent script).drop
            exchange.payload.length = sent script :=
          List.drop_left' (by simp)
        rw [dropped]
        constructor
        · rintro ⟨answered, ends⟩
          rw [located, List.forall₂_cons] at answered
          exact ⟨lacks, stageable, complete, awake, (ih others).mp ⟨answered.2, ends⟩⟩
        · rintro ⟨-, -, -, -, clear⟩
          obtain ⟨answered, ends⟩ := (@ih _ (position + 1 + exchange.payload.length) others).mpr
            clear
          exact ⟨.cons ⟨rfl, rfl, answersUnder_deliver complete⟩ answered, ends⟩

end Pairing

/-- The connection greets and then serves the script, paired. -/
def ServesPaired (script : List Exchange) (transcript : Transcript) : Prop :=
  ∃ served ending, transcript = .session served ending ∧ Paired 0 script (served, ending)

private theorem connection_greeted {σ : Type} {daemon : Daemon σ} {state : σ} {hello : Message}
    {inbound : List Inbound} (greets : peerProtocol hello.document = protocol) :
    connection daemon state (hello.inbound :: inbound) =
      .session (requestLoop daemon 0 state inbound).1
        (requestLoop daemon 0 state inbound).2 := by
  rw [connection, readFrame_inbound]
  simp only [greets, ne_eq, not_true_eq_false, if_false]

theorem servesPaired_iff {σ : Type} {daemon : Daemon σ} {state : σ} {hello : Message}
    {script : List Exchange} (greets : peerProtocol hello.document = protocol) :
    ServesPaired script (connection daemon state (hello.inbound :: sent script)) ↔
      Paired 0 script (requestLoop daemon 0 state (sent script)) := by
  rw [connection_greeted greets]
  constructor
  · rintro ⟨served, ending, same, paired⟩
    cases same
    exact paired
  · intro paired
    exact ⟨_, _, rfl, paired⟩

def emptyDaemon : Daemon Unit where
  backend :=
    { validate := fun _ => .ok ()
      query := fun _ => pure (.error (.parse, "expected a statement"))
      status := pure (.ok .null)
      schema := fun _ => pure (.ok .null)
      schemaApply := fun _ _ => pure (["nothing to apply"], .ok .nothingToApply)
      importCore := fun _ => pure (.ok .noChange)
      commit := fun _ _ _ _ => pure (.error ⟨.nothingToCommit, "nothing to commit"⟩)
      deleteBranch := fun _ => pure (.error ⟨.noSuchBranch, "no such branch"⟩)
      createBranch := fun _ _ => pure (.error ⟨.other, "the current branch is unborn"⟩)
      branches := pure (.ok [])
      checkoutBranch := fun _ => pure (.error ⟨.noSuchBranch, "no such branch"⟩)
      abortMerge := pure (.error ⟨.other, "no merge in progress"⟩)
      mergeWithAuthor := fun _ _ _ => pure (.error ⟨.noSuchBranch, "no such branch"⟩)
      conflictItems := pure (.ok [])
      resolveAll := fun _ => pure (.ok 0)
      discardWorkspace := pure (.ok false)
      exportTable := fun _ _ => pure (.ok (0, ""))
      exportGraph := fun _ => pure (.ok [])
      fsck := pure (.ok ⟨[]⟩)
      report := fun _ _ => pure (.error "unknown refspec") }
  wording := ⟨id, id, fun _ => "0.5"⟩
  payloadSetting := none
  host := ⟨fun _ => false, fun _ => true, fun _ _ => true⟩

private theorem short : 64 ≤ maxFrameBytes := by decide

def shortMessage (members : List (String × Json)) : Message := ⟨64, .object members, short⟩

def greeting : Message := shortMessage [("acetone", .object [("protocol", .int 1)])]

private theorem greeting_protocol : peerProtocol greeting.document = protocol := rfl

def bareRequest (verb : String) : Message :=
  shortMessage [("id", .int 1), ("verb", .string verb)]

def emptyPayload : List Message :=
  [shortMessage [("chunk", .string "")], shortMessage [("chunk_end", .bool true)]]

private theorem emptyPayload_streams (cap : Nat) : StreamsWithin cap emptyPayload :=
  ⟨[shortMessage [("chunk", .string "")]], [""], shortMessage [("chunk_end", .bool true)], rfl,
    by decide, rfl, Nat.zero_le cap, rfl⟩

def applyExchange : Exchange := ⟨bareRequest "schema-apply", emptyPayload⟩

private theorem apply_keepsProtocol : KeepsProtocol emptyDaemon applyExchange := by
  have applies : requestVerb applyExchange.request.document = "schema-apply" := rfl
  rw [KeepsProtocol, if_pos applies]
  exact emptyPayload_streams _

private theorem apply_respond : respond emptyDaemon applyExchange =
    pure ⟨[.advisory "nothing to apply"], .ok (.object [("applied", count 0)])⟩ := by
  have applies : requestVerb applyExchange.request.document = "schema-apply" := rfl
  simp only [respond, if_pos applies]
  rfl

def formatlessExchange : Exchange := ⟨bareRequest "import", emptyPayload⟩

private theorem formatless_keepsProtocol : KeepsProtocol emptyDaemon formatlessExchange := by
  have imports : requestVerb formatlessExchange.request.document = "import" := rfl
  rw [KeepsProtocol, imports, if_neg (by decide), if_pos rfl]
  exact emptyPayload_streams _

end Acetone.Serve

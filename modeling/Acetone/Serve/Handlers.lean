import Acetone.Cypher.Value
import Acetone.Lib.Lines
import Acetone.Serve.Frames

/-!
# The request handlers

Each verb of the daemon, from the parameters it reads to the reply it composes.
The repository behind the daemon is a parameter: it answers every operation
with a result or an error and moves to a next state, which may also hold what
other connections do in the meantime.
-/

namespace Acetone.Serve

open Acetone.Lib

def requestId (request : Json) : Json := (request.get "id").getD .null

def requestVerb (request : Json) : String := ((request.get "verb").bind Json.asStr).getD ""

def param (request : Json) (name : String) : Option Json :=
  (request.get "params").bind (Json.get · name)

def textParam (request : Json) (name : String) : Option String :=
  (param request name).bind Json.asStr

def flagParam (request : Json) (name : String) : Bool :=
  ((param request name).bind Json.asBool).getD false

def failed (kind message : String) : Reply := ⟨[], .error kind message⟩

def badRequest (message : String) : Reply := failed "bad-request" message

def done (members : List (String × Json)) : Reply := ⟨[], .ok (.object members)⟩

def count (number : Nat) : Json := .int number

/-- How texts are rendered inside messages: a string as `{:?}` shows it, an
identifier escaped for display, a float as JSON writes it. -/
structure Wording where
  debug : String → String
  identifier : String → String
  number : UInt64 → String

def Wording.digits (wording : Wording) (bits : UInt64) : Nat :=
  (wording.number bits).utf8ByteSize

def float63 : UInt64 := 0x43e0000000000000

section Parameters

variable (wording : Wording)

mutual

def jsonParamValue : Json → Except String Cypher.Value
  | .null => .ok .null
  | .bool value => .ok (.bool value)
  | .string value => .ok (.string value)
  | .int value =>
      if -2 ^ 63 ≤ value ∧ value < 2 ^ 63 then .ok (.int (.ofInt value))
      else .error ("integer " ++ toString value ++ " is outside the 64-bit signed range")
  | .float bits =>
      let magnitude := bits &&& ~~~ Model.signBit
      let text := wording.number bits
      if Model.infinityBits ≤ magnitude then .error ("number " ++ text ++ " is not finite")
      else if bits = Model.signBit then
        .error ("number " ++ text ++ " is a negative zero, which JSON parsing cannot type " ++
          "(write 0 for an integer or 0.0 for a float); refused")
      else if float63 ≤ magnitude then
        .error ("number " ++ text ++ " is an integer outside the 64-bit signed range " ++
          "(or a float too large to tell from one); refused")
      else .ok (.float bits)
  | .array items => (jsonParamValues items).map .list
  | .object members => (jsonParamMembers members).map .map

def jsonParamValues : List Json → Except String (List Cypher.Value)
  | [] => .ok []
  | item :: items => do
      let value ← jsonParamValue item
      let values ← jsonParamValues items
      return value :: values

def jsonParamMembers : List (String × Json) → Except String (List (String × Cypher.Value))
  | [] => .ok []
  | (name, item) :: members => do
      let value ← jsonParamValue item
      let values ← jsonParamMembers members
      return (name, value) :: values

end

/-- A parameter may be named with the query's sigil. -/
def stripSigil (raw : String) : String :=
  match raw.toList with
  | '$' :: name => .ofList name
  | _ => raw

def bindParams (bound : List (String × Cypher.Value)) :
    List (String × Json) → Except String (List (String × Cypher.Value))
  | [] => .ok bound
  | (raw, item) :: members => do
      let name := stripSigil raw
      if name = "" then throw "params.parameters: a parameter name is empty"
      let shown := "params.parameters." ++ wording.identifier name
      let value ← (jsonParamValue wording item).mapError fun message =>
        shown ++ ": " ++ message
      if (bound.lookup name).isSome then
        throw (shown ++ ": bound twice (with and without the '$' sigil)")
      bindParams (bound ++ [(name, value)]) members

def jsonParams : Json → Except String (List (String × Cypher.Value))
  | .object members => bindParams wording [] members
  | _ => .error "params.parameters must be a JSON object \x7bname: value\x7d"

end Parameters

inductive QueryErrorKind where
  | parse | bind | exec | persist | locked | graph | writeAtVersion

def QueryErrorKind.text : QueryErrorKind → String
  | .parse => "parse"
  | .bind => "bind"
  | .exec => "exec"
  | .persist => "persist"
  | .locked => "locked"
  | .graph => "graph"
  | .writeAtVersion => "write-at-version"

inductive GraphErrorKind where
  | locked | dirtyWorkspace | noSuchBranch | branchExists | noCurrentBranch | nothingToCommit
  | mergeInProgress | discardDuringMerge | invalidSignature | branchConflict | workspaceConflict
  | other

def GraphErrorKind.text : GraphErrorKind → String
  | .locked => "locked"
  | .dirtyWorkspace => "dirty-workspace"
  | .noSuchBranch => "no-such-branch"
  | .branchExists => "branch-exists"
  | .noCurrentBranch => "no-current-branch"
  | .nothingToCommit => "nothing-to-commit"
  | .mergeInProgress | .discardDuringMerge => "merge-in-progress"
  | .invalidSignature => "invalid-author"
  | .branchConflict | .workspaceConflict => "concurrent-modification"
  | .other => "graph"

structure GraphError where
  kind : GraphErrorKind
  message : String

structure Signature where
  name : String
  email : String

structure QueryCall where
  cypher : String
  autodeclare : Bool
  version : Option String
  parameters : List (String × Cypher.Value)

structure WriteStats where
  nodesCreated : Nat
  relationshipsCreated : Nat
  propertiesSet : Nat
  labelsAdded : Nat
  labelsRemoved : Nat
  nodesDeleted : Nat
  relationshipsDeleted : Nat

structure QueryResult where
  columns : List String
  rows : List (List Json)
  advisories : List String
  write : Option WriteStats

inductive SchemaApplyOutcome where
  | dryRun
  | nothingToApply
  | applied (changes : Nat)

structure ImportCall where
  format : String
  source : String
  label : Option String
  edge : Option String
  fromLabel : Option String
  toLabel : Option String
  disc : Option String
  branch : Option String
  message : Option String
  author : Option Signature
  batchSize : Option Nat

inductive ImportOutcome where
  | noChange
  | committed (commit : String) (nodes edges : Nat)

inductive MergeOutcome where
  | alreadyUpToDate
  | fastForward (head : String)
  | merged (commit : String)
  | conflicts

inductive ResolveSide where
  | ours
  | theirs

inductive ExportFormat where
  | csv
  | json
  | ndjson

inductive ExportScope where
  | label (name : String)
  | edge (name : String)

structure ExportTable where
  name : String
  kind : String
  rows : Nat
  text : String

/-- The findings as they are shown; the flag marks an error among them. -/
structure FsckReport where
  findings : List (Bool × String)

structure ChangeReport where
  json : String
  markdown : String
  nodes : Nat
  edges : Nat
  conflicts : Nat

structure Backend (σ : Type) where
  validate : Signature → Except String Unit
  query : QueryCall → StateM σ (Except (QueryErrorKind × String) QueryResult)
  status : StateM σ (Except String Json)
  schema : Option String → StateM σ (Except String Json)
  schemaApply : String → Bool → StateM σ (List String × Except String SchemaApplyOutcome)
  importCore : ImportCall → StateM σ (Except String ImportOutcome)
  commit : String → List (String × String) → Bool → Option Signature →
    StateM σ (Except GraphError String)
  deleteBranch : String → StateM σ (Except GraphError String)
  createBranch : String → Option String → StateM σ (Except GraphError String)
  branches : StateM σ (Except GraphError (List (String × String)))
  checkoutBranch : String → StateM σ (Except GraphError Unit)
  abortMerge : StateM σ (Except GraphError Unit)
  mergeWithAuthor : String → String → Option Signature → StateM σ (Except GraphError MergeOutcome)
  conflictItems : StateM σ (Except String (List Json))
  resolveAll : ResolveSide → StateM σ (Except GraphError Nat)
  discardWorkspace : StateM σ (Except GraphError Bool)
  exportTable : ExportFormat → ExportScope → StateM σ (Except String (Nat × String))
  exportGraph : ExportFormat → StateM σ (Except String (List ExportTable))
  fsck : StateM σ (Except String FsckReport)
  report : String → String → StateM σ (Except String ChangeReport)

section Verbs

variable {σ : Type} (backend : Backend σ) (wording : Wording) (request : Json)

def graphFailed (error : GraphError) : Reply := failed error.kind.text error.message

inductive AuthorError where
  | shape
  | invalid (message : String)

def authorShape : String :=
  "params.author must be an object of exactly \x7b\"name\": string, \"email\": string\x7d"

def authorFailed : AuthorError → Reply
  | .shape => badRequest authorShape
  | .invalid message => failed "invalid-author" message

/-- An author is absent, or exactly a name and an email the store accepts. -/
def requestAuthor : Except AuthorError (Option Signature) :=
  match param request "author" with
  | none | some .null => .ok none
  | some (.object members) =>
      if members.any fun member => member.1 ≠ "name" ∧ member.1 ≠ "email" then .error .shape
      else
        match (members.lookup "name").bind Json.asStr,
            (members.lookup "email").bind Json.asStr with
        | some name, some email =>
            match backend.validate ⟨name, email⟩ with
            | .ok _ => .ok (some ⟨name, email⟩)
            | .error message => .error (.invalid message)
        | _, _ => .error .shape
  | some _ => .error .shape

def requestVersion : Except Reply (Option String) :=
  match param request "at" with
  | none => .ok none
  | some document =>
      match document.asStr with
      | some refspec => .ok (some refspec)
      | none => .error (badRequest "params.at must be a string refspec")

def writeMember (stats : WriteStats) : String × Json :=
  ("write", .object [
    ("nodes_created", count stats.nodesCreated),
    ("relationships_created", count stats.relationshipsCreated),
    ("properties_set", count stats.propertiesSet),
    ("labels_added", count stats.labelsAdded),
    ("labels_removed", count stats.labelsRemoved),
    ("nodes_deleted", count stats.nodesDeleted),
    ("relationships_deleted", count stats.relationshipsDeleted)])

def queryReply : Except (QueryErrorKind × String) QueryResult → Reply
  | .ok result =>
      { streamed := result.rows.map (.row result.columns) ++ result.advisories.map .advisory
        terminal := .ok (.object (("rows", count result.rows.length) ::
          (result.write.map writeMember).toList)) }
  | .error (kind, message) => failed kind.text message

def requestParameters : Except String (List (String × Cypher.Value)) :=
  match param request "parameters" with
  | none => .ok []
  | some document => jsonParams wording document

def runQuery : StateM σ Reply :=
  match textParam request "cypher" with
  | none => pure (badRequest "query needs params.cypher (a string)")
  | some cypher =>
      match requestVersion request with
      | .error reply => pure reply
      | .ok version =>
          match requestParameters wording request with
          | .error message => pure (badRequest message)
          | .ok parameters =>
              queryReply <$> backend.query
                ⟨cypher, flagParam request "autodeclare", version, parameters⟩

def documentReply (kind : String) : Except String Json → Reply
  | .ok document => ⟨[], .ok document⟩
  | .error message => failed kind message

def runStatus : StateM σ Reply := documentReply "graph" <$> backend.status

def runSchema : StateM σ Reply :=
  match requestVersion request with
  | .error reply => pure reply
  | .ok version => documentReply "graph" <$> backend.schema version

def ExportFormat.parse : String → Except String ExportFormat
  | "csv" => .ok .csv
  | "json" => .ok .json
  | "ndjson" => .ok .ndjson
  | other => .error ("unknown export format " ++ wording.debug other)

def exportTableReply : Except String (Nat × String) → Reply
  | .ok (rows, text) => ⟨sendChunks text, .ok (.object [("rows", count rows)])⟩
  | .error message => failed "export" message

def announcement (table : ExportTable) : Streamed :=
  .table (.object [("name", .string table.name), ("kind", .string table.kind),
    ("rows", count table.rows)])

def exportGraphReply : Except String (List ExportTable) → Reply
  | .ok tables =>
      { streamed := tables.flatMap fun table => announcement table :: sendChunks table.text
        terminal := .ok (.object [("tables", count tables.length)]) }
  | .error message => failed "export" message

def runExport : StateM σ Reply :=
  match textParam request "format" with
  | none => pure (badRequest
      "export needs params.format (\"csv\", \"json\" or \"ndjson\")")
  | some name =>
      match ExportFormat.parse wording name with
      | .error message => pure (badRequest message)
      | .ok format =>
          match textParam request "label", textParam request "edge" with
          | some _, some _ =>
              pure (badRequest "params.label and params.edge are mutually exclusive")
          | some label, none => exportTableReply <$> backend.exportTable format (.label label)
          | none, some edge => exportTableReply <$> backend.exportTable format (.edge edge)
          | none, none => exportGraphReply <$> backend.exportGraph format

def fsckReply : Except String FsckReport → Reply
  | .ok report =>
      { streamed := report.findings.map fun finding => .finding finding.2
        terminal := .ok (.object [
          ("clean", .bool report.findings.isEmpty),
          ("errors", count (report.findings.filter fun finding => finding.1).length),
          ("advisories", count (report.findings.filter fun finding => !finding.1).length)]) }
  | .error message => failed "graph" message

def runFsck : StateM σ Reply := fsckReply <$> backend.fsck

def reportReply (asJson : Bool) : Except String ChangeReport → Reply
  | .ok report =>
      { streamed := sendChunks (if asJson then report.json ++ "\n" else report.markdown)
        terminal := .ok (.object [("nodes", count report.nodes), ("edges", count report.edges),
          ("conflicts", count report.conflicts)]) }
  | .error message => failed "report" message

def runReport : StateM σ Reply :=
  match textParam request "from", textParam request "to" with
  | some old, some new => reportReply (flagParam request "json") <$> backend.report old new
  | _, _ => pure (badRequest "report needs params.from and params.to (refspecs)")

def schemaApplyReply : List String × Except String SchemaApplyOutcome → Reply
  | (plan, outcome) =>
      { streamed := plan.map .advisory
        terminal :=
          match outcome with
          | .ok .dryRun => .ok (.object [("dry_run", .bool true), ("applied", count 0)])
          | .ok .nothingToApply => .ok (.object [("applied", count 0)])
          | .ok (.applied changes) => .ok (.object [("applied", count changes)])
          | .error message => .error "schema-apply" message }

/-- The document has been drained by now. -/
def runSchemaApply (text : String) : StateM σ Reply :=
  schemaApplyReply <$> backend.schemaApply text (flagParam request "dry_run")

def importReply : Except String ImportOutcome → Reply
  | .ok .noChange => done [("imported", .bool false)]
  | .ok (.committed commit nodes edges) =>
      done [("imported", .bool true), ("nodes", count nodes), ("edges", count edges),
        ("commit", .string commit)]
  | .error message => failed "import" message

def importWithoutFormat : Reply :=
  badRequest "import needs params.format (e.g. \"csv\" or \"ndjson\")"

/-- The source has been drained by now; the author is checked after it. -/
def runImport (format text : String) : StateM σ Reply :=
  match requestAuthor backend request with
  | .error error => pure (authorFailed error)
  | .ok author =>
      importReply <$> backend.importCore
        { format := format
          source := text
          label := textParam request "label"
          edge := textParam request "edge"
          fromLabel := textParam request "from"
          toLabel := textParam request "to"
          disc := textParam request "disc"
          branch := textParam request "branch"
          message := textParam request "message"
          author := author
          batchSize := (param request "batch_size").bind Json.asU64 }

/-- `parse_kv` for a trailer. -/
def parseTrailer (raw : String) : Except String (String × String) :=
  let refused := "invalid trailer argument " ++ wording.debug raw ++ ": expected KEY=VALUE"
  match splitOnce '=' raw.toList with
  | some ([], _) | none => .error refused
  | some (key, value) => .ok (.ofList key, .ofList value)

def parseTrailers : List Json → Except String (List (String × String))
  | [] => .ok []
  | entry :: entries =>
      match entry.asStr with
      | none => .error "trailer entries must be \"key=value\" strings"
      | some raw => do
          let trailer ← parseTrailer wording raw
          let trailers ← parseTrailers entries
          return trailer :: trailers

def requestTrailers : Except String (List (String × String)) :=
  match param request "trailer" with
  | none => .ok []
  | some (.array entries) => parseTrailers wording entries
  | some _ => .error "params.trailer must be an array of \"key=value\" strings"

def graphReply {α : Type} (body : α → List (String × Json)) : Except GraphError α → Reply
  | .ok answer => done (body answer)
  | .error error => graphFailed error

def runCommit : StateM σ Reply :=
  match textParam request "message" with
  | none => pure (badRequest "commit needs params.message (a string)")
  | some message =>
      match requestTrailers wording request with
      | .error refusal => pure (badRequest refusal)
      | .ok trailers =>
          match requestAuthor backend request with
          | .error error => pure (authorFailed error)
          | .ok author =>
              graphReply (fun commit => [("commit", .string commit)]) <$>
                backend.commit message trailers (flagParam request "allow_empty") author

def runBranch : StateM σ Reply :=
  match textParam request "delete" with
  | some name =>
      graphReply (fun was => [("deleted", .string name), ("was", .string was)]) <$>
        backend.deleteBranch name
  | none =>
      match textParam request "name" with
      | some name =>
          graphReply (fun head => [("created", .string name), ("at", .string head)]) <$>
            backend.createBranch name (textParam request "refspec")
      | none =>
          graphReply (fun branches => [("branches", .array (branches.map fun branch =>
            .object [("name", .string branch.1), ("head", .string branch.2)]))]) <$>
            backend.branches

def runCheckout : StateM σ Reply :=
  match textParam request "branch" with
  | none => pure (badRequest "checkout needs params.branch (a string)")
  | some branch =>
      graphReply (fun _ => [("checked_out", .string branch)]) <$> backend.checkoutBranch branch

def conflictsReply : Except String (List Json) → Reply
  | .ok items => done [("outcome", .string "conflicts"), ("count", count items.length),
      ("conflicts", .array items)]
  | .error message => failed "report" message

/-- Conflicts are listed from the merge now in progress. -/
def mergeReply : Except GraphError MergeOutcome → StateM σ Reply
  | .ok .alreadyUpToDate => pure (done [("outcome", .string "up-to-date")])
  | .ok (.fastForward head) =>
      pure (done [("outcome", .string "fast-forward"), ("head", .string head)])
  | .ok (.merged commit) =>
      pure (done [("outcome", .string "merged"), ("commit", .string commit)])
  | .ok .conflicts => conflictsReply <$> backend.conflictItems
  | .error error => pure (graphFailed error)

def runMerge : StateM σ Reply :=
  if flagParam request "abort" then
    graphReply (fun _ => [("aborted", .bool true)]) <$> backend.abortMerge
  else
    match textParam request "refspec" with
    | none => pure (badRequest "merge needs params.refspec (or params.abort)")
    | some refspec =>
        match requestAuthor backend request with
        | .error error => pure (authorFailed error)
        | .ok author =>
            backend.mergeWithAuthor refspec ((textParam request "message").getD "merge") author >>=
              mergeReply backend

def runDiscard : StateM σ Reply :=
  graphReply (fun discarded => [("discarded", .bool discarded)]) <$> backend.discardWorkspace

def resolveSide : Option ResolveSide :=
  match flagParam request "all_ours", flagParam request "all_theirs" with
  | true, false => some .ours
  | false, true => some .theirs
  | _, _ => none

def runResolve : StateM σ Reply :=
  match resolveSide request with
  | none => pure (badRequest
      "resolve needs exactly one of params.all_ours or params.all_theirs")
  | some side =>
      graphReply (fun resolved => [("resolved", count resolved)]) <$> backend.resolveAll side

def unknownVerb (verb : String) : Reply :=
  failed "unknown-verb" ("verb " ++ wording.debug verb ++
    " is not served (this build serves \"query\" " ++
    "(read and write), \"status\", \"schema-apply\", \"import\", " ++
    "\"commit\", \"branch\", \"checkout\", \"merge\", \"resolve\", " ++
    "\"discard\", \"export\", \"fsck\", \"report\" and \"schema\")")

def runPlain (verb : String) : StateM σ Reply :=
  match verb with
  | "query" => runQuery backend wording request
  | "status" => runStatus backend
  | "schema" => runSchema backend request
  | "commit" => runCommit backend wording request
  | "branch" => runBranch backend request
  | "checkout" => runCheckout backend request
  | "merge" => runMerge backend request
  | "resolve" => runResolve backend request
  | "discard" => runDiscard backend
  | "export" => runExport backend wording request
  | "fsck" => runFsck backend
  | "report" => runReport backend request
  | other => pure (unknownVerb wording other)

end Verbs

end Acetone.Serve

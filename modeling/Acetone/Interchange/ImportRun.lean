import Mathlib.Data.List.DropRight
import Acetone.Graph.Repository
import Acetone.Interchange.Import

/-!
# An import run

From the records that an extractor yields to a commit: the checks made before
anything is staged, the branch the import lands on, the batches saved to the
workspace one after another, the commit and the way back to the branch that was
checked out.  A batch that is refused resets the workspace; a refused commit
leaves it as the batches made it.
-/

namespace Acetone.Interchange

open Acetone.Lib Acetone.Model Acetone.Graph

def isWhitespace (char : Char) : Bool :=
  let code := char.toNat
  9 ≤ code ∧ code ≤ 13 ∨ code = 32 ∨ code = 133 ∨ code = 160 ∨ code = 5760 ∨
    8192 ≤ code ∧ code ≤ 8202 ∨ code = 8232 ∨ code = 8233 ∨ code = 8239 ∨ code = 8287 ∨
    code = 12288

def isControl (char : Char) : Bool :=
  let code := char.toNat
  code < 32 ∨ 127 ≤ code ∧ code < 160

def trimEnd (text : String) : String := String.ofList (text.toList.rdropWhile isWhitespace)

def trim (text : String) : String :=
  String.ofList ((text.toList.dropWhile isWhitespace).rdropWhile isWhitespace)

inductive StoreError where
  | invalidSignature (reason : String)
  | invalidTrailer (token reason : String)
  | invalidRef (name : String)
  | corrupt (context reason : String)
deriving DecidableEq

structure Signature where
  name : String
  email : String

def maxIdentityFieldBytes : Nat := 1024

/-- Git's own rules for the name and the e-mail of an identity. -/
def validateIdentityFields (name email : String) : Except StoreError Unit :=
  if trim name = "" then .error (.invalidSignature "name must not be empty")
  else checkEach (fun (field, text) =>
    if text.toList.any fun char => char = '<' || char = '>' || isControl char then
      .error (.invalidSignature
        (field ++ " must not contain angle brackets or control characters"))
    else .ok ()) [("name", name), ("email", email)]

def Signature.validate (signature : Signature) : Except StoreError Unit := do
  validateIdentityFields signature.name signature.email
  checkEach (fun (field, text) =>
    if trim text ≠ text then
      .error (.invalidSignature (field ++ " must not start or end with whitespace"))
    else if text.utf8ByteSize > maxIdentityFieldBytes then
      .error (.invalidSignature (field ++ " is " ++ toString text.utf8ByteSize ++
        " bytes; the limit is " ++ toString maxIdentityFieldBytes))
    else .ok ()) [("name", signature.name), ("email", signature.email)]

def validateTrailer (trailer : String × String) : Except StoreError Unit :=
  let (token, value) := trailer
  let invalid := fun reason => Except.error (StoreError.invalidTrailer token reason)
  match token.toList with
  | [] => invalid "token must not be empty"
  | first :: rest =>
      if ¬ first.isAlphanum then invalid "token must start with an ASCII letter or digit"
      else if ¬ rest.all fun char => char.isAlphanum || char = '-' then
        invalid "token may contain only ASCII letters, digits and '-'"
      else if value = "" then invalid "value must not be empty"
      else if value.toList.any isControl then
        invalid "value must be a single line without control characters"
      else if value ≠ trim value then
        invalid "value must not have leading or trailing whitespace (git trims it on read)"
      else .ok ()

/-- The stored message: the text proper and a last paragraph of trailers. -/
def assembleMessage (message : String) (trailers : List (String × String)) :
    Except StoreError String := do
  checkEach validateTrailer trailers
  let body := trimEnd message
  if body = "" then throw (.corrupt "new commit" "commit message must not be empty")
  if trailers = [] then return body ++ "\n"
  return body ++ "\n\n" ++ String.join (trailers.map fun trailer =>
    trailer.1 ++ ": " ++ trailer.2 ++ "\n")

structure Provenance where
  source : String
  extractor : String
  sourceHash : String

structure ImportOptions where
  branch : Option String
  message : Option String
  provenance : Provenance
  author : Option Signature
  batchSize : Option Nat

def provenanceTrailers (provenance : Provenance) : List (String × String) :=
  [("Acetone-Source", provenance.source), ("Acetone-Extractor", provenance.extractor),
    ("Acetone-Source-Hash", provenance.sourceHash)]

def defaultMessage (provenance : Provenance) (nodes edges : Nat) : String :=
  "Import " ++ toString nodes ++ " node(s) and " ++ toString edges ++ " edge(s) from " ++
    provenance.source ++ " via " ++ provenance.extractor

/-- What the author and the trailers have to pass before anything is staged. -/
def ImportOptions.validate (options : ImportOptions) : Except StoreError Unit := do
  match options.author with
  | some author => author.validate
  | none => pure ()
  checkEach validateTrailer (provenanceTrailers options.provenance)

inductive ImportOutcome where
  | noChange
  | committed (commit : Commit) (nodes edges : Nat)

inductive RunError where
  | repository (cause : RepositoryError)
  | store (cause : StoreError)
  | source (cause : ImportFailure)

/-- A repository with the commit that HEAD names when it names no branch. -/
structure Worktree where
  repo : Repository
  detached : Option Commit
deriving DecidableEq

/-- The state after an operation of an import, with its result. -/
abbrev RunEffect (α : Type) := Except RunError α × Worktree

namespace Worktree

variable (tree : Worktree)

def currentBranch : Option String :=
  match tree.detached with
  | some _ => none
  | none => some tree.repo.head

def headCommitId : Option Commit :=
  match tree.detached with
  | some commit => some commit
  | none => tree.repo.headCommit

/-- The workspace differs from the checked-out commit, attached or detached. -/
def isDirty : Bool :=
  match tree.headCommitId with
  | none => tree.repo.workspace ≠ blank
  | some tip => tree.repo.workspace ≠ tip.checkedOut

def resetWorkspaceToHead : Worktree :=
  { tree with
    repo := { tree.repo with
      workspace := (tree.headCommitId.map Commit.checkedOut).getD blank } }

end Worktree

/-- What an extractor yields in turn.  A failure ends the source. -/
abbrev Extracted := Except ImportFailure ImportRecord

section

variable (numerals : Numerals)

def canonicalise (labels : SortedMap String LabelDef) (rtypes : SortedMap String RelTypeDef)
    (item : Extracted) : Except ImportFailure Put := do
  let record ← item
  canonical numerals labels rtypes record

/-- One batch, put into canonical form, judged and staged. -/
def prepareBatch (labels : SortedMap String LabelDef) (rtypes : SortedMap String RelTypeDef)
    (tracker : UniqueTracker) (base : Workspace) (batch : List Extracted) :
    Except ImportFailure (List Put × UniqueTracker × Transaction) := do
  let puts ← batch.mapM (canonicalise numerals labels rtypes)
  let (violations, tracker) ←
    (tracker.applyBatch labels (puts.filterMap Put.node?)).mapError .tracker
  if violations ≠ [] then throw (.constraints violations)
  let txn ← (stageBatch base puts).mapError .graph
  return (puts, tracker, txn)

def countPuts (puts : List Put) (counts : Nat × Nat) : Nat × Nat :=
  ((puts.filterMap Put.node?).length + counts.1, (puts.filterMap Put.edge?).length + counts.2)

def Worktree.saveBatches (labels : SortedMap String LabelDef)
    (rtypes : SortedMap String RelTypeDef) (tracker : UniqueTracker) (tree : Worktree) :
    List (List Extracted) → RunEffect (Nat × Nat)
  | [] => (.ok (0, 0), tree)
  | batch :: batches =>
      match prepareBatch numerals labels rtypes tracker tree.repo.workspace batch with
      | .error cause => (.error (.source cause), tree)
      | .ok (puts, tracker, txn) =>
          match tree.repo.save txn with
          | (.error cause, saved) => (.error (.repository cause), { tree with repo := saved })
          | (.ok (), saved) =>
              let (result, done) :=
                Worktree.saveBatches labels rtypes tracker { tree with repo := saved } batches
              (result.map (countPuts puts), done)

/-- Pull the records of a source and save them a batch at a time. -/
def Worktree.streamBatches (tree : Worktree) (extracted : List Extracted)
    (batchSize : Option Nat) : RunEffect (Nat × Nat) :=
  let manifest := tree.repo.workspace.manifest
  match readSchema manifest.schema with
  | .error cause => (.error (.source (.graph cause)), tree)
  | .ok entries =>
      let labels := SortedMap.ofList (entries.filterMap labelPair?)
      let rtypes := SortedMap.ofList (entries.filterMap relTypePair?)
      match UniqueTracker.seed labels manifest.nodes with
      | .error cause => (.error (.source (.tracker cause)), tree)
      | .ok tracker =>
          tree.saveBatches numerals labels rtypes tracker
            (extracted.toChunks (max (batchSize.getD defaultImportBatch) 1))

variable (hash : Commit → Nat) (stamp : String → Nat)

/-- Commit the saved workspace.  The message is looked at last, when the commit
is written; a stale `MERGE_HEAD` is gone by then. -/
def Worktree.commitSaved (tree : Worktree) (message : String)
    (trailers : List (String × String)) : RunEffect Commit :=
  match tree.currentBranch with
  | none => (.error (.repository .noCurrentBranch), tree)
  | some _ =>
      let assembled := assembleMessage message trailers
      match tree.repo.commitImpl hash (.beginWrite tree.repo.workspace) false
          (stamp (assembled.toOption.getD "")) with
      | (.error cause, next) => (.error (.repository cause), { tree with repo := next })
      | (.ok commit, next) =>
          match assembled with
          | .error cause =>
              let stale := tree.repo.mergeHead.any fun theirs =>
                tree.repo.headCommit.any fun tip => theirs.isAncestor tip
              (.error (.store cause), { tree with
                repo := { tree.repo with
                  workspace := next.workspace
                  mergeHead := if stale then none else tree.repo.mergeHead } })
          | .ok _ => (.ok commit, { tree with repo := next })

def Worktree.importIntoWorkspace (tree : Worktree) (options : ImportOptions)
    (extracted : List Extracted) : RunEffect ImportOutcome :=
  match tree.streamBatches numerals extracted options.batchSize with
  | (.error cause, failed) => (.error cause, failed.resetWorkspaceToHead)
  | (.ok (nodes, edges), staged) =>
      if ¬ staged.isDirty then (.ok .noChange, staged)
      else
        let message := options.message.getD (defaultMessage options.provenance nodes edges)
        let (result, next) :=
          staged.commitSaved hash stamp message (provenanceTrailers options.provenance)
        (result.map fun commit => .committed commit nodes edges, next)

variable (refAllowed : String → Bool)

/-- Create the branch unless it exists, and check it out.  Git refuses some
names. -/
def switchToBranch (repo : Repository) (branch : String) : Except RunError Bool × Repository :=
  if repo.headCommit.isSome ∧ ¬ refAllowed branch then
    (.error (.store (.invalidRef branch)), repo)
  else
    let (result, next) := repo.switchToBranch branch
    (result.mapError .repository, next)

/-- Return to the original branch.  A failed import leaves nothing on a side branch
that was created for it, which is removed. -/
def comeBack (original branch : String) (created : Bool) (ended : RunEffect ImportOutcome) :
    RunEffect ImportOutcome :=
  let (result, done) := ended
  match result, done.repo.checkoutBranch original with
  | .error cause, (.ok (), back) =>
      (.error cause, { done with
        repo := if created then (back.deleteBranch branch).2 else back })
  | .error cause, (.error _, back) => (.error cause, { done with repo := back })
  | .ok _, (.error cause, back) => (.error (.repository cause), { done with repo := back })
  | .ok outcome, (.ok (), back) => (.ok outcome, { done with repo := back })

def Worktree.importOntoBranch (tree : Worktree) (branch : String) (options : ImportOptions)
    (extracted : List Extracted) : RunEffect ImportOutcome :=
  match tree.currentBranch with
  | none => (.error (.repository .noCurrentBranch), tree)
  | some original =>
      if branch = original then (.error (.repository (.importConfig branch)), tree)
      else
        match switchToBranch refAllowed tree.repo branch with
        | (.error cause, next) => (.error cause, { tree with repo := next })
        | (.ok created, next) =>
            let side : Worktree := { tree with repo := next }
            comeBack original branch created
              (side.importIntoWorkspace numerals hash stamp options extracted)

def Worktree.importRun (tree : Worktree) (options : ImportOptions)
    (extracted : List Extracted) : RunEffect ImportOutcome :=
  if tree.isDirty then (.error (.repository .dirtyWorkspace), tree)
  else
    match options.validate with
    | .error cause => (.error (.store cause), tree)
    | .ok () =>
        match options.branch with
        | none => tree.importIntoWorkspace numerals hash stamp options extracted
        | some branch =>
            tree.importOntoBranch numerals hash stamp refAllowed branch options extracted

end

end Acetone.Interchange

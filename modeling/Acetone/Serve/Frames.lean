import Acetone.Lib.Json

/-!
# Frames of the daemon protocol

A reply is a run of streamed frames and one terminal frame, each under the
request's id.  No frame over the cap is sent: a result row that does not fit
is replaced by a terminal error, any other frame that does not fit ends the
connection.
-/

namespace Acetone.Serve

open Acetone.Lib

/-- The cap on one frame, in either direction. -/
def maxFrameBytes : Nat := 16 * 1024 * 1024

def exportChunkBytes : Nat := 64 * 1024

inductive Streamed where
  | row (columns : List String) (values : List Json)
  | advisory (line : String)
  | table (announcement : Json)
  | chunk (text : String)
  | finding (text : String)

inductive Terminal where
  | ok (body : Json)
  | error (kind message : String)

inductive Frame where
  | streamed (id : Json) (body : Streamed)
  | terminal (id : Json) (body : Terminal)

structure Reply where
  streamed : List Streamed
  terminal : Terminal

namespace Streamed

def IsRow : Streamed → Prop
  | .row _ _ => True
  | _ => False

instance decidableIsRow : (body : Streamed) → Decidable body.IsRow
  | .row _ _ => instDecidableTrue
  | .advisory _ => instDecidableFalse
  | .table _ => instDecidableFalse
  | .chunk _ => instDecidableFalse
  | .finding _ => instDecidableFalse

def member : Streamed → String × Json
  | .row columns values =>
      ("row", .object [("columns", .array (columns.map .string)), ("values", .array values)])
  | .advisory line => ("advisory", .string line)
  | .table announcement => ("table", announcement)
  | .chunk text => ("chunk", .string text)
  | .finding text => ("finding", .string text)

end Streamed

def Terminal.member : Terminal → String × Json
  | .ok body => ("ok", body)
  | .error kind message =>
      ("error", .object [("kind", .string kind), ("message", .string message)])

def Frame.json : Frame → Json
  | .streamed id body => .object [("id", id), body.member]
  | .terminal id body => .object [("id", id), body.member]

/-- The chunks from one begun on, each cut at the first character boundary from
`exportChunkBytes` on. -/
def chunksFrom (begun : List Char) (used : Nat) : List Char → List String
  | [] => if begun = [] then [] else [String.ofList begun]
  | letter :: text =>
      if exportChunkBytes ≤ used + letter.utf8Size then
        String.ofList (begun ++ [letter]) :: chunksFrom [] 0 text
      else chunksFrom (begun ++ [letter]) (used + letter.utf8Size) text

def sendChunks (text : String) : List Streamed :=
  (chunksFrom [] 0 text.toList).map .chunk

section Writing

variable (digits : UInt64 → Nat)

def Fits (frame : Frame) : Prop := frame.json.size digits ≤ maxFrameBytes

instance decidableFits (frame : Frame) : Decidable (Fits digits frame) := Nat.decLe _ _

/-- The frames a handler wrote, and whether it returned without an error. -/
structure Delivery where
  written : List Frame
  complete : Bool

def writeFrame (frame : Frame) : Delivery :=
  if Fits digits frame then ⟨[frame], true⟩ else ⟨[], false⟩

/-- The answer in place of a result row over the cap. -/
def rowTooLarge : Terminal :=
  .error "result-too-large" ("a result row exceeds the wire frame cap: " ++
    "refusing to send a frame over the 16777216-byte cap")

def deliver (id : Json) (terminal : Terminal) : List Streamed → Delivery
  | [] => writeFrame digits (.terminal id terminal)
  | body :: bodies =>
      if Fits digits (.streamed id body) then
        let rest := deliver id terminal bodies
        ⟨.streamed id body :: rest.written, rest.complete⟩
      else if body.IsRow then writeFrame digits (.terminal id rowTooLarge)
      else ⟨[], false⟩

/-- The reply can be answered within the cap: every frame of it fits, or the
first that does not is a result row and the error in its place fits. -/
def Deliverable (id : Json) (reply : Reply) : Prop :=
  (∀ body ∈ reply.streamed, Fits digits (.streamed id body)) ∧
      Fits digits (.terminal id reply.terminal) ∨
    ∃ before row after, reply.streamed = before ++ row :: after ∧
      (∀ body ∈ before, Fits digits (.streamed id body)) ∧
      row.IsRow ∧ ¬ Fits digits (.streamed id row) ∧
      Fits digits (.terminal id rowTooLarge)

/-- Zero or more streamed frames and one terminal frame, all under the id. -/
def AnswersUnder (id : Json) (frames : List Frame) : Prop :=
  ∃ (streamed : List Streamed) (terminal : Terminal),
    frames = streamed.map (.streamed id) ++ [.terminal id terminal]

variable {digits : UInt64 → Nat} {id : Json} {terminal : Terminal}

theorem writeFrame_complete {frame : Frame} :
    (writeFrame digits frame).complete = true ↔ Fits digits frame := by
  unfold writeFrame
  split <;> simp_all

theorem answersUnder_writeFrame
    (complete : (writeFrame digits (.terminal id terminal)).complete = true) :
    AnswersUnder id (writeFrame digits (.terminal id terminal)).written := by
  refine ⟨[], terminal, ?_⟩
  rw [writeFrame, if_pos (writeFrame_complete.mp complete)]
  rfl

theorem answersUnder_deliver {bodies : List Streamed}
    (complete : (deliver digits id terminal bodies).complete = true) :
    AnswersUnder id (deliver digits id terminal bodies).written := by
  induction bodies with
  | nil => exact answersUnder_writeFrame complete
  | cons body bodies ih =>
      rw [deliver] at complete ⊢
      by_cases fits : Fits digits (.streamed id body)
      · rw [if_pos fits] at complete ⊢
        obtain ⟨streamed, last, written⟩ := ih complete
        exact ⟨body :: streamed, last, congrArg _ written⟩
      · rw [if_neg fits] at complete ⊢
        by_cases row : body.IsRow
        · rw [if_pos row] at complete ⊢
          exact answersUnder_writeFrame complete
        · rw [if_neg row] at complete
          cases complete

theorem deliver_complete_iff {bodies : List Streamed} :
    (deliver digits id terminal bodies).complete = true ↔
      Deliverable digits id ⟨bodies, terminal⟩ := by
  induction bodies with
  | nil =>
      rw [deliver, writeFrame_complete]
      constructor
      · intro fits
        exact .inl ⟨by simp, fits⟩
      · rintro (⟨-, fits⟩ | ⟨before, row, after, split, -⟩)
        · exact fits
        · simp at split
  | cons body bodies ih =>
      rw [deliver]
      by_cases fits : Fits digits (.streamed id body)
      · rw [if_pos fits]
        refine ih.trans ⟨?_, ?_⟩
        · rintro (⟨all, last⟩ | ⟨before, row, after, split, all, rest⟩)
          · exact .inl ⟨List.forall_mem_cons.mpr ⟨fits, all⟩, last⟩
          · exact .inr ⟨body :: before, row, after, congrArg _ split,
              List.forall_mem_cons.mpr ⟨fits, all⟩, rest⟩
        · rintro (⟨all, last⟩ | ⟨before, row, after, split, all, rest⟩)
          · exact .inl ⟨(List.forall_mem_cons.mp all).2, last⟩
          · cases before with
            | nil =>
                cases split
                exact absurd fits rest.2.1
            | cons first before =>
                cases split
                exact .inr ⟨before, row, after, rfl, (List.forall_mem_cons.mp all).2, rest⟩
      · rw [if_neg fits]
        by_cases isRow : body.IsRow
        · rw [if_pos isRow, writeFrame_complete]
          constructor
          · intro last
            exact .inr ⟨[], body, bodies, rfl, by simp, isRow, fits, last⟩
          · rintro (⟨all, -⟩ | ⟨before, row, after, split, all, rest⟩)
            · exact absurd (all body List.mem_cons_self) fits
            · exact rest.2.2
        · rw [if_neg isRow]
          constructor
          · intro impossible
            cases impossible
          · rintro (⟨all, -⟩ | ⟨before, row, after, split, all, rest⟩)
            · exact absurd (all body List.mem_cons_self) fits
            · cases before with
              | nil =>
                  cases split
                  exact absurd rest.1 isRow
              | cons first before =>
                  cases split
                  exact absurd (all _ List.mem_cons_self) fits

end Writing

end Acetone.Serve

import Mathlib.Data.List.Basic
import Yukino.Lib.Hoare

set_option autoImplicit false

/-!
# Server-sent events of `apps/agent_proxy`

`ReadSSE` reads the bytes of an upstream line by line, collects the fields `event` and `data`, and
gives them to a handler at each empty line and at the end. The bridges for Claude and for Codex
have the same function.

## Main definitions

* `Upstream` — what an upstream sends.
* `readSSE` — `ReadSSE`.

## Main results

* `triple_readSSE` — what a handler keeps, the reader keeps.
-/

namespace Yukino.AgentProxy

open Hoare

abbrev Line : Type := List UInt8

/-- The bytes that can be read, and whether reading fails after them. -/
structure Upstream where
  bytes : List UInt8
  fails : Bool

/-- The limit of the scanner for one line. -/
def maxLine : ℕ :=
  16 * 1024 * 1024

/-- The lines without their line feeds; no line comes after the last line feed. -/
def rawLines (bytes : List UInt8) : List Line :=
  let parts := bytes.splitOn 10
  if parts.getLast? = some [] then parts.dropLast else parts

def dropCR (line : Line) : Line :=
  if line.getLast? = some 13 then line.dropLast else line

/-- The lines that the scanner returns, up to one that is too long. -/
def scanLines (u : Upstream) : List Line :=
  ((rawLines u.bytes).takeWhile (·.length < maxLine)).map dropCR

/-- The scanner has stopped with an error. -/
def scanFails (u : Upstream) : Bool :=
  u.fails || (rawLines u.bytes).any fun line => maxLine ≤ line.length

/-- A text with one character for each byte. -/
def ofBytes (bytes : List UInt8) : String :=
  String.ofList (bytes.map fun b => Char.ofNat b.toNat)

/-- The field and the value of a line, without the colon and one space. -/
def cutField (line : Line) : String × Line :=
  let value := (line.dropWhile (· ≠ 58)).drop 1
  (ofBytes (line.takeWhile (· ≠ 58)), if value.head? = some 32 then value.drop 1 else value)

/-- `strings.Join(data, "\n")`. -/
def joinLines (data : List Line) : List UInt8 :=
  (data.intersperse [10]).flatten

section Read

variable {ε σ : Type} (handle : String → List UInt8 → EStateM ε σ Bool)

/-- The loop of `ReadSSE`. -/
def readLines (atEnd : String → List Line → EStateM ε σ Unit) :
    List Line → String → List Line → EStateM ε σ Unit
  | [], event, data => atEnd event data
  | line :: lines, event, data =>
    if line = [] then
      if data = [] then readLines atEnd lines "" []
      else do
        if ← handle event (joinLines data) then readLines atEnd lines "" [] else pure ()
    else if (cutField line).1 = "event" then readLines atEnd lines (ofBytes (cutField line).2) data
    else if (cutField line).1 = "data" then
      readLines atEnd lines event (data ++ [(cutField line).2])
    else readLines atEnd lines event data

def readSSE (readError : ε) (u : Upstream) : EStateM ε σ Unit :=
  readLines handle
    (fun event data =>
      if scanFails u then throw readError
      else if data = [] then pure ()
      else do
        let _ ← handle event (joinLines data)
        pure ())
    (scanLines u) "" []

variable {handle} {P Q E : σ → Prop}

lemma triple_readLines {atEnd : String → List Line → EStateM ε σ Unit}
    (hhandle : ∀ event data,
      Triple P (handle event data) (fun more s => if more then P s else Q s) E)
    (hend : ∀ event data, Triple P (atEnd event data) (fun _ => Q) E) (lines : List Line)
    (event : String) (data : List Line) :
    Triple P (readLines handle atEnd lines event data) (fun _ => Q) E := by
  induction lines generalizing event data with
  | nil => exact hend event data
  | cons line lines ih =>
    rw [readLines]
    split_ifs
    · exact ih _ _
    · refine triple_bind (hhandle _ _) fun more => ?_
      cases more with
      | true => exact ih _ _
      | false => exact triple_pure fun _ hs => hs
    · exact ih _ _
    · exact ih _ _
    · exact ih _ _

/-- What a handler keeps, the reader keeps. -/
theorem triple_readSSE {readError : ε} {u : Upstream}
    (hhandle : ∀ event data,
      Triple P (handle event data) (fun more s => if more then P s else Q s) E)
    (hstop : ∀ s, P s → Q s) (hfail : ∀ s, P s → E s) :
    Triple P (readSSE handle readError u) (fun _ => Q) E := by
  refine triple_readLines hhandle (fun event data => ?_) _ _ _
  split_ifs
  · exact triple_throw hfail
  · exact triple_pure hstop
  · refine triple_bind (hhandle _ _) fun more => triple_pure fun s hs => ?_
    cases more with
    | true => exact hstop s hs
    | false => exact hs

end Read

end Yukino.AgentProxy

import Xv6Container.Lib.Run

/-!
# Console input

`consoleintr` and `consoleread` of `console.c`, each under `cons.lock`; a read that waits gives
the lock away. Beside them stands a terminal: the text that can no longer be edited, the line
that still can, and who has read what.
-/

namespace Xv6Container.Console

abbrev INPUT_BUF : ℕ := 128

/-- The variable `input`. -/
structure Input where
  buf : ℕ → UInt8
  r : UInt32
  w : UInt32
  e : UInt32

def newline : UInt8 := 10

def ctrlD : UInt8 := 4

def crnl (c : UInt8) : UInt8 := if c = 13 then newline else c

/-- The loop for control-U. -/
def killLine : ℕ → Input → Input
  | 0, input => input
  | n + 1, input =>
    if input.e ≠ input.w ∧ input.buf ((input.e - 1).toNat % INPUT_BUF) ≠ newline then
      killLine n { input with e := input.e - 1 }
    else input

/-- A byte that is no control key. -/
def store (input : Input) (c : UInt8) : Input :=
  if c ≠ 0 ∧ (input.e - input.r).toNat < INPUT_BUF then
    let input := { input with
      buf := Function.update input.buf (input.e.toNat % INPUT_BUF) (crnl c)
      e := input.e + 1 }
    if crnl c = newline ∨ crnl c = ctrlD ∨ input.e = input.r + 128 then
      { input with w := input.e }
    else input
  else input

/-- The body of the loop of `consoleintr`. -/
def consolekey (input : Input) (c : UInt8) : Input :=
  if c = 16 then input  -- control-P
  else if c = 21 then killLine (input.e - input.w).toNat input  -- control-U
  else if c = 8 ∨ c = 127 then  -- control-H, delete
    if input.e ≠ input.w then { input with e := input.e - 1 } else input
  else store input c

/-- The byte ends a line or fills the buffer, so that `consoleintr` wakes the readers. -/
def wakes (input : Input) (c : UInt8) : Bool :=
  c ∉ [16, 21, 8, 127, 0] ∧ (input.e - input.r).toNat < INPUT_BUF ∧
    (crnl c = newline ∨ crnl c = ctrlD ∨ input.e + 1 = input.r + 128)

/-- `consoleintr`, for the bytes that `getc` returns. -/
def consoleintr (input : Input) (cs : List UInt8) : Input := cs.foldl consolekey input

/-- Where a call of `consoleread` is: it waits for the rest, it has returned, or it has returned -1
because its process has been killed. -/
inductive Status
  | waiting (n : ℕ)
  | returned
  | killed
  deriving DecidableEq

/-- A call of `consoleread`: the number of bytes asked for, and the bytes stored at `dst`. -/
structure Read where
  target : ℕ
  got : List UInt8
  status : Status
  deriving DecidableEq

/-- `consoleread` with the lock, up to where it gives the lock away. There are `n` bytes to go. -/
def consoleread (target : ℕ) (killed : Bool) : ℕ → Input → List UInt8 → Input × Read
  | 0, input, got => (input, ⟨target, got, .returned⟩)
  | n + 1, input, got =>
    if input.r = input.w then
      (input, ⟨target, got, if killed then .killed else .waiting (n + 1)⟩)
    else
      let c := input.buf (input.r.toNat % INPUT_BUF)
      let next := { input with r := input.r + 1 }
      if c = ctrlD then
        (if n + 1 < target then { next with r := next.r - 1 } else next, ⟨target, got, .returned⟩)
      else if c = newline then (next, ⟨target, got ++ [c], .returned⟩)
      else consoleread target killed n next (got ++ [c])

/-- The console, and all calls of `consoleread` so far. -/
structure State where
  input : Input
  reads : List Read

/-- A stay under the lock: `consoleintr` with some bytes, a new read, or the rest of an old one. -/
inductive Event
  | intr (cs : List UInt8)
  | read (n : ℕ) (killed : Bool)
  | resume (k : ℕ) (killed : Bool)

def State.step (s : State) : Event → Option State
  | .intr cs => some { s with input := consoleintr s.input cs }
  | .read n killed =>
    let x := consoleread n killed n s.input []
    some ⟨x.1, s.reads ++ [x.2]⟩
  | .resume k killed =>
    match s.reads[k]? with
    | some ⟨target, got, .waiting n⟩ =>
      let x := consoleread target killed n s.input got
      some ⟨x.1, s.reads.set k x.2⟩
    | _ => none

def State.boot : State := ⟨⟨fun _ => 0, 0, 0, 0⟩, []⟩

/-- What has been typed up to the end of a line, the line that is being typed, what the reads have
taken, in the order in which they have, and the reads. -/
structure Tty where
  kept : List UInt8
  line : List UInt8
  log : List (ℕ × UInt8)
  reads : List Read

namespace Tty

/-- A byte is lost while `INPUT_BUF` bytes have not been read. -/
def hasRoom (t : Tty) : Prop := t.kept.length + t.line.length < t.log.length + INPUT_BUF

instance (t : Tty) : Decidable t.hasRoom :=
  inferInstanceAs (Decidable (t.kept.length + t.line.length < t.log.length + INPUT_BUF))

/-- A byte is added to the line. A newline, control-D and the last byte for which there is room end
it. -/
def type (t : Tty) (c : UInt8) : Tty :=
  if c ≠ 0 ∧ t.hasRoom then
    let t := { t with line := t.line ++ [crnl c] }
    if crnl c = newline ∨ crnl c = ctrlD ∨ ¬ t.hasRoom then
      { t with kept := t.kept ++ t.line, line := [] }
    else t
  else t

/-- The editing keys change nothing but the line. -/
def key (t : Tty) (c : UInt8) : Tty :=
  if c = 16 then t
  else if c = 21 then { t with line := [] }
  else if c = 8 ∨ c = 127 then { t with line := t.line.dropLast }
  else t.type c

/-- Read number `k` takes what there is, up to the end of a line. Control-D ends a read, and is left
to the next one if there is something to return. -/
def take (kept : List UInt8) (k target : ℕ) (killed : Bool) :
    ℕ → List (ℕ × UInt8) → List UInt8 → List (ℕ × UInt8) × Read
  | 0, log, got => (log, ⟨target, got, .returned⟩)
  | n + 1, log, got =>
    match kept[log.length]? with
    | none => (log, ⟨target, got, if killed then .killed else .waiting (n + 1)⟩)
    | some c =>
      if c = ctrlD then (if n + 1 < target then log else log ++ [(k, c)], ⟨target, got, .returned⟩)
      else if c = newline then (log ++ [(k, c)], ⟨target, got ++ [c], .returned⟩)
      else take kept k target killed n (log ++ [(k, c)]) (got ++ [c])

def step (t : Tty) : Event → Option Tty
  | .intr cs => some (cs.foldl key t)
  | .read n killed =>
    let x := take t.kept t.reads.length n killed n t.log []
    some { t with log := x.1, reads := t.reads ++ [x.2] }
  | .resume k killed =>
    match t.reads[k]? with
    | some ⟨target, got, .waiting n⟩ =>
      let x := take t.kept k target killed n t.log got
      some { t with log := x.1, reads := t.reads.set k x.2 }
    | _ => none

def boot : Tty := ⟨[], [], [], []⟩

end Tty

end Xv6Container.Console

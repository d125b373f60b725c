import RiscvEmulator.System.Run

/-! # The debugger's command loop

`command_loop` and its commands, `debug_run` with a debugger attached, and the entry into
the loop at the head of `Core::step`. These call one another, so the machine keeps the calls
as a stack of frames, innermost first. What the commands print is left out, and with it
the arguments of the commands that only print. -/
namespace RiscvEmulator.Debug
open RiscvEmulator.Memory RiscvEmulator.System

/-! ## Lines and numbers -/

/-- White space to a stream. -/
def isSpace (c : Char) : Bool := c == ' ' || (9 ≤ c.toNat && c.toNat ≤ 13)

/-- The words, of which `word` has begun. -/
def words : List Char → List Char → List String
  | word, [] => if word = [] then [] else [String.ofList word]
  | word, c :: rest =>
    if isSpace c then
      if word = [] then words [] rest else String.ofList word :: words [] rest
    else words (word ++ [c]) rest

def tokenize (cmd : String) : List String := words [] cmd.toList

/-- The lines that the loop skips (`find_first_not_of`). -/
def isBlank (line : String) : Bool :=
  line.toList.all fun c => c == ' ' || c == '\t' || c == '\r' || c == '\n'

def digitOf (base : Nat) (c : Char) : Option Nat :=
  let digit := if '0' ≤ c ∧ c ≤ '9' then some (c.toNat - '0'.toNat)
    else if 'a' ≤ c ∧ c ≤ 'z' then some (c.toNat - 'a'.toNat + 10)
    else if 'A' ≤ c ∧ c ≤ 'Z' then some (c.toNat - 'A'.toNat + 10)
    else none
  digit.filter (· < base)

/-- The number in front, if there is a digit; what follows it is not looked at. -/
def readDigits (base : Nat) : Option Nat → List Char → Option Nat
  | value, [] => value
  | value, c :: rest =>
    match digitOf base c with
    | some digit => readDigits base (some (value.getD 0 * base + digit)) rest
    | none => value

/-- Whether it is negative, and what follows the sign. -/
def readSign : List Char → Bool × List Char
  | '-' :: rest => (true, rest)
  | '+' :: rest => (false, rest)
  | cs => (false, cs)

/-- The prefix goes only with a digit behind it. -/
def skipHexPrefix : List Char → List Char
  | '0' :: x :: c :: rest =>
    if (x = 'x' ∨ x = 'X') ∧ (digitOf 16 c).isSome then c :: rest else '0' :: x :: c :: rest
  | cs => cs

/-- `std::stoi` on a word, with none for an exception. -/
def stoi (cs : List Char) : Option Int :=
  let (negative, cs) := readSign cs
  match readDigits 10 none cs with
  | some value =>
    let value : Int := if negative then -value else value
    if -2 ^ 31 ≤ value ∧ value < 2 ^ 31 then some value else none
  | none => none

/-- `std::stoul`, with none for an exception. -/
def stoul (base : Nat) (cs : List Char) : Option (BitVec 64) :=
  let (negative, cs) := readSign (cs.dropWhile isSpace)
  match readDigits base none (if base = 16 then skipHexPrefix cs else cs) with
  | some value =>
    if value < 2 ^ 64 then
      some (if negative then -BitVec.ofNat 64 value else BitVec.ofNat 64 value)
    else none
  | none => none

def parseAddress (addrStr : String) : Option Word :=
  let cs := addrStr.toList
  let value :=
    if cs = [] then some 0
    else if 2 < cs.length ∧ cs[0]? = some '0' ∧ (cs[1]? = some 'x' ∨ cs[1]? = some 'X') then
      stoul 16 cs
    else if cs.getLast? = some 'h' ∨ cs.getLast? = some 'H' then stoul 16 cs.dropLast
    else stoul 10 cs
  value.map (·.setWidth 32)

/-! ## Commands -/

/-- The breakpoints stand in the order in which the set is gone through. -/
structure Debugger where
  breakpoints : List Word
  focusCore : Nat
  stepMode : Bool
  continueExecution : Bool
  active : Bool

/-- What a command has the cores do. -/
inductive Action where
  | nothing
  | debugRun (steps : Word)
  | untilBreakpoint
deriving DecidableEq

namespace Debugger

def shouldBreak (d : Debugger) (pc : Word) : Bool := d.breakpoints.contains pc

/-- `order` says where a hash table puts a new element, and how that moves the others. -/
def setBreakpoint (order : List Word → Word → List Word) (d : Debugger) (pc : Word) : Debugger :=
  if d.shouldBreak pc then d else { d with breakpoints := order d.breakpoints pc }

def clearStepMode (d : Debugger) : Debugger :=
  { d with stepMode := false, continueExecution := false }

def cmdBreak (order : List Word → Word → List Word) (d : Debugger) : List String → Debugger
  | [] => d
  | arg :: _ =>
    match parseAddress arg with
    | some addr => d.setBreakpoint order addr
    | none => d

def cmdDelete (d : Debugger) : List String → Debugger
  | [] => { d with breakpoints := [] }
  | arg :: _ =>
    match stoi arg.toList with
    | some bpNum =>
      if bpNum < 1 ∨ (d.breakpoints.length : Int) < bpNum then d
      else { d with breakpoints := d.breakpoints.eraseIdx (bpNum - 1).toNat }
    | none => d

/-- A count that cannot be read is 1, and a negative one is as `uint32_t` has it. -/
def cmdStep : List String → Action
  | [] => .debugRun 1
  | arg :: _ =>
    match stoi arg.toList with
    | some count => .debugRun (BitVec.ofInt 32 count)
    | none => .debugRun 1

def cmdQuit (d : Debugger) : Debugger :=
  { d with active := false, continueExecution := true, stepMode := false }

/-- The commands without a case, and unknown ones, only print. -/
def handleCommand (order : List Word → Word → List Word) (d : Debugger) :
    List String → Debugger × Action
  | [] => (d, .nothing)
  | command :: args =>
    if command = "b" ∨ command = "break" then (d.cmdBreak order args, .nothing)
    else if command = "d" ∨ command = "delete" then (d.cmdDelete args, .nothing)
    else if command = "s" ∨ command = "step" then (d, cmdStep args)
    else if command = "n" ∨ command = "next" then (d, .debugRun 1)
    else if command = "c" ∨ command = "continue" then (d, .untilBreakpoint)
    else if command = "q" ∨ command = "quit" then (d.cmdQuit, .nothing)
    else (d, .nothing)

end Debugger

/-! ## The machine -/

/-- Where a call goes on. -/
inductive Frame (N : Nat) where
  /-- `command_loop` at the head of its loop. -/
  | commandLoop
  /-- `command_loop` after `handle_command`. -/
  | handled
  /-- `cmd_continue` after `debug_run`. -/
  | cmdContinue
  /-- `debug_run` at the head of its loop, with so many steps to go. -/
  | debugRun (steps : Nat)
  /-- `debug_run` among the cores, with so many steps to go after this one. -/
  | cycle (steps : Nat) (cores : List (Fin N))
  /-- `Core::step` after `enter_debug_loop`. -/
  | debugHook
  /-- `execute_core_step` from `handle_interrupt` in `Core::step` on. -/
  | step (i : Fin N)

/-- What shows of a transition: a command that has been read, or an instruction that a
core executes. -/
inductive Event (N : Nat) where
  | silent
  | read (action : Action)
  | executed (i : Fin N) (pc : Word)
deriving DecidableEq

/-- The simulator, the debugger, the lines still to come, and the calls. -/
structure Config (N n : Nat) where
  emulation : Emulation N n
  debugger : Debugger
  input : List String
  stack : List (Frame N)

/-- The calls by which a command has the cores run. -/
def Action.frames {N : Nat} : Action → List (Frame N)
  | .nothing => []
  | .debugRun steps => [.debugRun steps.toNat]
  | .untilBreakpoint => [.debugRun 1, .cmdContinue]

namespace Config
variable {N n : Nat}

/-- Without a line left, `getline` fails from then on. -/
def commandLoop (order : List Word → Word → List Word) (c : Config N n)
    (stack : List (Frame N)) : Event N × Config N n :=
  if !c.debugger.active then (.silent, { c with stack := stack })
  else
    match c.input with
    | [] => (.silent, { c with stack := stack })
    | line :: input =>
      if isBlank line then (.silent, { c with input := input })
      else
        let (debugger, action) := c.debugger.handleCommand order (tokenize line)
        (if tokenize line = [] then .silent else .read action,
          { c with
            debugger := debugger
            input := input
            stack := action.frames ++ .handled :: stack })

def handled (c : Config N n) (stack : List (Frame N)) : Config N n :=
  if c.debugger.continueExecution || c.debugger.stepMode then { c with stack := stack }
  else { c with stack := .commandLoop :: stack }

def breakpointHit (c : Config N n) : Bool :=
  (List.finRange N).any fun i => c.debugger.shouldBreak (c.emulation.cores i).pc

def cmdContinue (c : Config N n) (stack : List (Frame N)) : Config N n :=
  if c.breakpointHit || c.emulation.allCoresFinished then { c with stack := stack }
  else { c with stack := .debugRun 1 :: .cmdContinue :: stack }

def debugRun (c : Config N n) (stack : List (Frame N)) : Nat → Config N n
  | 0 => { c with stack := stack }
  | steps + 1 =>
    if c.emulation.allCoresFinished then { c with stack := stack }
    else { c with stack := .cycle steps (List.finRange N) :: stack }

/-- The turn of core `i` up to `handle_interrupt`, or to the loop at a breakpoint. -/
def turn (c : Config N n) (i : Fin N) (stack : List (Frame N)) : Config N n :=
  if c.emulation.entersStep i then
    let booted := c.emulation.setCore i { c.emulation.cores i with hasBooted := true }
    let c := { c with emulation := { c.emulation with toSimulator := booted } }
    if c.debugger.shouldBreak (c.emulation.cores i).pc then
      { c with
        debugger := { c.debugger with focusCore := i.val, active := true }
        stack := .commandLoop :: .debugHook :: .step i :: stack }
    else { c with stack := .step i :: stack }
  else { c with stack := stack }

def cycle (c : Config N n) (steps : Nat) (stack : List (Frame N)) : List (Fin N) → Config N n
  | [] =>
    { c with
      emulation := c.emulation.endDebugCycle c.emulation.toSimulator
      stack := .debugRun steps :: stack }
  | i :: cores => c.turn i (.cycle steps cores :: stack)

/-- The instruction that the step comes to, if it does. -/
def executes (s : Simulator N n) (i : Fin N) : Event N :=
  match s.prepare i with
  | .ok (true, s') => .executed i (s'.cores i).pc
  | _ => .silent

/-- A step that aborts ends it all. -/
def step (c : Config N n) (i : Fin N) (stack : List (Frame N)) : Option (Event N × Config N n) :=
  match c.emulation.step i with
  | .ok s => some (executes c.emulation.toSimulator i,
      { c with
        emulation := { c.emulation with toSimulator := s.checkInfiniteLoop i }
        stack := stack })
  | .error _ => none

def next (order : List Word → Word → List Word) (c : Config N n) :
    Option (Event N × Config N n) :=
  match c.stack with
  | [] => none
  | .commandLoop :: stack => some (c.commandLoop order stack)
  | .handled :: stack => some (.silent, c.handled stack)
  | .cmdContinue :: stack => some (.silent, c.cmdContinue stack)
  | .debugRun steps :: stack => some (.silent, c.debugRun stack steps)
  | .cycle steps cores :: stack => some (.silent, c.cycle steps stack cores)
  | .debugHook :: stack =>
    some (.silent, { c with debugger := c.debugger.clearStepMode, stack := stack })
  | .step i :: stack => c.step i stack

end Config
end RiscvEmulator.Debug

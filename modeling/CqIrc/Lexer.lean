import CqIrc.Flex.Munch
import CqIrc.Tokens
import Mathlib.Logic.Relation

/-! `irc-client.l`: the rules of each start condition, their actions and the loop
of `yylex`. The two bytes behind the buffer are flex's end-of-buffer marks, so
the input holds the bytes before them and its end is `<<EOF>>`. Undefined
behaviour of the C code ends the run with a fault. -/

namespace CqIrc
open Flex Flex.Pattern

inductive StartCondition where
  | initial
  | genericInitial
  | genericParams
  | pfx
  | prefixOpt
  | params
  | param
  | trailing
  deriving DecidableEq, Repr

inductive Rule where
  | enterPrefix
  | event (name : Signal)
  | command
  | source
  | user
  | host
  | leavePrefix
  | space
  | genericCrlf
  | crlf
  | colon
  | middle
  | trailing
  | echo
  deriving DecidableEq, Repr

/-- The default rule, which flex appends to every start condition. -/
def echo : Rule × Pattern Byte := (.echo, cls (negated []))

def rules : StartCondition → Rules Byte Rule
  | .initial =>
    [(.enterPrefix, quoted [':']),
     (.event .welcome, anyCase ['0', '0', '4']),
     (.event .ping, anyCase ['P', 'I', 'N', 'G']),
     (.event .privmsg, anyCase ['P', 'R', 'I', 'V', 'M', 'S', 'G']),
     (.event .notice, anyCase ['N', 'O', 'T', 'I', 'C', 'E']),
     (.event .error, anyCase ['E', 'R', 'R', 'O', 'R']),
     (.command, command), echo]
  | .genericInitial => [(.enterPrefix, quoted [':']), (.command, command), echo]
  | .pfx => [(.source, alt nickname servername), echo]
  | .prefixOpt =>
    -- the braces stand inside the quotes, so flex expands neither name
    [(.user, quoted ['!', '{', 'u', 's', 'e', 'r', '}']),
     (.host, quoted ['@', '{', 'h', 'o', 's', 't', '}']),
     (.leavePrefix, quoted [' ']), echo]
  | .genericParams => [(.space, quoted [' ']), (.genericCrlf, crlf), echo]
  | .params => [(.space, quoted [' ']), (.crlf, crlf), echo]
  | .param => [(.colon, quoted [':']), (.middle, middle), echo]
  | .trailing => [(.trailing, star (cls (negated (ascii ['\x00', '\n', '\r'])))), echo]

structure State where
  start : StartCondition
  stack : List StartCondition
  input : Bytes
  /-- `none` while the local is uninitialised. -/
  eventSignal : Option Signal
  extraEventSignal : Option Signal
  command : Option Bytes
  message : Message
  /-- Every string `strndup` has returned so far. -/
  allocated : List Bytes
  calls : List Invocation
  deriving DecidableEq, Repr

inductive Fault where
  | outOfTable
  | jammed
  | stackUnderflow
  | paramOverflow
  | uninitialisedCall
  deriving DecidableEq, Repr

structure Exit where
  code : Int
  calls : List Invocation
  rest : Bytes
  allocated : List Bytes
  freed : List (Option Bytes)
  deriving DecidableEq, Repr

inductive Outcome where
  | next (s : State)
  | ret (e : Exit)
  | fault (f : Fault)
  deriving DecidableEq, Repr

def State.push (s : State) (c : StartCondition) : State :=
  { s with start := c, stack := s.start :: s.stack }

def State.pop (s : State) (k : State → Outcome) : Outcome :=
  match s.stack with
  | [] => .fault .stackUnderflow
  | c :: cs => k { s with start := c, stack := cs }

def State.dup (s : State) (text : Bytes) : State :=
  { s with allocated := s.allocated ++ [strndup text] }

def State.call (s : State) (i : Invocation) : State := { s with calls := s.calls ++ [i] }

def State.exit (s : State) (code : Int) (freed : List (Option Bytes)) : Outcome :=
  .ret ⟨code, s.calls, s.input, s.allocated, freed⟩

/-- `IRC_EVENT_TEST`. -/
def eventTest (cb : Callbacks) (name : Signal) (s : State) : Outcome :=
  if cb.has name then .next { s with eventSignal := some name }
  else s.exit 1 (destroyMessage s.message)

/-- `IRC_EVENT_TEST_EXTRA`, whose argument is the copy of `text`. -/
def eventTestExtra (cb : Callbacks) (name : Signal) (text : Bytes) (s : State) : Outcome :=
  let s := s.dup text
  if cb.has name then
    .next { s with extraEventSignal := some name, command := some (strndup text) }
  else s.exit 1 (destroyMessage s.message ++ [some (strndup text)])

def addParam (text : Bytes) (s : State) : Outcome :=
  match s.message.params.add (strndup text) with
  | none => .fault .paramOverflow
  | some ps => .next { s.dup text with message := { s.message with params := ps } }

def action (cb : Callbacks) (s : State) (text : Bytes) : Rule → Outcome
  | .enterPrefix => .next (s.push .pfx)
  | .event name => eventTest cb name (s.push .params)
  | .command => eventTestExtra cb .unknown text (s.push .genericParams)
  | .source =>
    let s := s.push .prefixOpt
    .next { s.dup text with
      message := { s.message with pfx := { s.message.pfx with source := some (strndup text) } } }
  | .user =>
    let name := text.drop 1
    .next { s.dup name with
      message := { s.message with pfx := { s.message.pfx with user := some (strndup name) } } }
  | .host =>
    let name := text.drop 1
    .next { s.dup name with
      message := { s.message with pfx := { s.message.pfx with host := some (strndup name) } } }
  | .leavePrefix => s.pop fun s => s.pop fun s => .next s
  | .space => .next (s.push .param)
  | .genericCrlf =>
    match s.extraEventSignal with
    | none => .fault .uninitialisedCall
    | some f =>
      (s.call ⟨f, s.command, s.message⟩).exit 0 (destroyMessage s.message ++ [s.command])
  | .crlf =>
    match s.eventSignal with
    | none => .fault .uninitialisedCall
    | some f =>
      (s.call ⟨f, none, s.message⟩).exit 0 (destroyMessage s.message)
  | .colon => .next (s.push .trailing)
  | .middle => s.pop fun s => addParam text s
  | .trailing =>
    s.pop fun s => s.pop fun s =>
      .next { s.dup text with message := { s.message with trailing := some (strndup text) } }
  | .echo => .next s

/-- One turn of the scanner: match at the current position, then act. -/
def step (cb : Callbacks) (s : State) : Outcome :=
  match s.input with
  | [] => s.exit (-2) (destroyMessage s.message ++ [s.command])
  | _ :: _ =>
    match munch inTable (rules s.start) s.input with
    | none => .fault .outOfTable
    | some none => .fault .jammed
    | some (some (r, n)) => action cb { s with input := s.input.drop n } (s.input.take n) r

def begin (generic : Bool) (line : Bytes) : State :=
  let s : State := ⟨.initial, [], line, none, none, none, .zero, [], []⟩
  if generic then s.push .genericInitial else s

def run (cb : Callbacks) : Nat → State → Option (Except Fault Exit)
  | 0, _ => none
  | n + 1, s =>
    match step cb s with
    | .next s' => run cb n s'
    | .ret e => some (.ok e)
    | .fault f => some (.error f)

/-- The scanner on a line; `none` would mean more than `length + 1` actions. -/
def yylex (cb : Callbacks) (generic : Bool) (line : Bytes) : Option (Except Fault Exit) :=
  run cb (line.length + 1) (begin generic line)

def Steps (cb : Callbacks) : State → State → Prop :=
  Relation.ReflTransGen fun s s' => step cb s = .next s'

end CqIrc

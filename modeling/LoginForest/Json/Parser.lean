/-
  From tokens to a node, with the open lists and records on a stack.
-/
import LoginForest.Json.Token

namespace LoginForest.Json

/-- An open list or record; what it holds so far comes last first. A record that has read a
key and a colon waits for the member's value. -/
inductive Frame where
  | list (done : List Node)
  | record (done : List (Literal × Node))
  | member (done : List (Literal × Node)) (key : Literal)

/-- What may follow. -/
inductive Expect where
  | value
  | valueOrClose
  | key
  | keyOrClose
  | colon (key : Literal)
  | commaOrClose
  | nothing (whole : Node)

structure Parsing where
  stack : List Frame
  expect : Expect

/-- A value is complete: it goes into the innermost open frame. -/
def Parsing.complete (n : Node) : List Frame → Option Parsing
  | [] => some ⟨[], .nothing n⟩
  | .list done :: stack => some ⟨.list (n :: done) :: stack, .commaOrClose⟩
  | .member done key :: stack => some ⟨.record ((key, n) :: done) :: stack, .commaOrClose⟩
  | .record _ :: _ => none

/-- A token that starts a value. -/
def Parsing.value (stack : List Frame) : Token → Option Parsing
  | .null => complete .null stack
  | .bool b => complete (.bool b) stack
  | .number n => complete (.number n) stack
  | .text t => complete (.text t) stack
  | .listOpen => some ⟨.list [] :: stack, .valueOrClose⟩
  | .recordOpen => some ⟨.record [] :: stack, .keyOrClose⟩
  | _ => none

/-- Close the innermost frame. -/
def Parsing.close : List Frame → Token → Option Parsing
  | .list done :: stack, .listClose => complete (.list done.reverse) stack
  | .record done :: stack, .recordClose => complete (.record done.reverse) stack
  | _, _ => none

def Parsing.step (s : Parsing) (t : Token) : Option Parsing :=
  match s.expect, t with
  | .value, t => value s.stack t
  | .valueOrClose, .listClose => close s.stack .listClose
  | .valueOrClose, t => value s.stack t
  | .key, .text key => some ⟨s.stack, .colon key⟩
  | .keyOrClose, .text key => some ⟨s.stack, .colon key⟩
  | .keyOrClose, .recordClose => close s.stack .recordClose
  | .colon key, .colon =>
    match s.stack with
    | .record done :: stack => some ⟨.member done key :: stack, .value⟩
    | _ => none
  | .commaOrClose, .comma =>
    match s.stack with
    | .list _ :: _ => some ⟨s.stack, .value⟩
    | .record _ :: _ => some ⟨s.stack, .key⟩
    | _ => none
  | .commaOrClose, t => close s.stack t
  | _, _ => none

def Node.ofTokens? (ts : List Token) : Option Node :=
  match ts.foldlM Parsing.step ⟨[], .value⟩ with
  | some ⟨[], .nothing n⟩ => some n
  | _ => none

/-- The node that `s` writes, blanks around it allowed and nothing else. -/
def parse? (s : String) : Option Node :=
  (tokens? s.toList).bind Node.ofTokens?

/-- The node that the bytes of a file write. Bytes that are not UTF-8 do no harm in a string
that is skipped. -/
def parseBytes? (b : Bytes) : Option Node :=
  match b.text? with
  | some s => parse? s
  | none => (symbolTokens? b.symbols).bind Node.ofTokens?

end LoginForest.Json

/-
Building a message step by step. A session is a stack of frames, each with the
elements and the branches gathered so far. Elements are appended to the top
frame, moved as a whole into a branch of it, and the branches of a frame become
an argument of the frame below when the frame is closed. There is always a
frame: the lowest one can not be closed.
-/
import IcuMessage.Print
import IcuMessage.Message.Read

namespace IcuMessage

structure Frame where
  elements : Message := []
  branches : List Branch := []

structure Session where
  top : Frame := {}
  below : List Frame := []
  layout : Layout := .compact

inductive Step where
  | openFrame
  | setLayout (layout : Layout)
  | text (value : String)
  | placeholder (id : ArgumentId)
  | simple (kind : SimpleKind) (id : ArgumentId) (style : Option String)
  | branch (selector : String)
  | close (kind : BranchKind) (id : ArgumentId) (offset : Option Int64)
  | load (source : String)
  | nest (id : ArgumentId) (selector : String) (count : Nat)
  | removeLast

inductive StepError where
  | noOpenFrame
  | malformed (cause : Json.Error)

namespace Frame

def append (frame : Frame) (elements : Message) : Frame :=
  { frame with elements := frame.elements ++ elements }

/-- The only branch of a select argument takes all elements. -/
def nestOnce (id : ArgumentId) (selector : String) (elements : Message) : Message :=
  [.argument id (.branching .select none [⟨selector, elements⟩])]

def nest (id : ArgumentId) (selector : String) : Nat → Message → Message
  | 0, elements => elements
  | count + 1, elements => nest id selector count (nestOnce id selector elements)

end Frame

namespace Session

def depth (session : Session) : Nat :=
  session.below.length + 1

def text (session : Session) : String :=
  Message.text session.layout session.top.elements

def append (session : Session) (elements : Message) : Session :=
  { session with top := session.top.append elements }

/-- Moves the elements of the top frame into a branch. -/
def branch (session : Session) (selector : String) : Session :=
  { session with
    top := ⟨[], session.top.branches ++ [⟨selector, session.top.elements⟩]⟩ }

/-- A select is built without an offset, whatever is asked for. -/
def offsetFor : BranchKind → Option Int64 → Option Int64
  | .select, _ => none
  | .plural, offset | .selectOrdinal, offset => offset

/-- Closes the top frame; elements that are in no branch are lost. -/
def close (session : Session) (kind : BranchKind) (id : ArgumentId) (offset : Option Int64) :
    Except StepError Session :=
  match session.below with
  | [] => .error .noOpenFrame
  | frame :: below =>
    let format := Format.branching kind (offsetFor kind offset) session.top.branches
    .ok { session with top := frame.append [.argument id format], below := below }

def step (session : Session) : Step → Except StepError Session
  | .openFrame => .ok { session with top := {}, below := session.top :: session.below }
  | .setLayout layout => .ok { session with layout := layout }
  | .text value => .ok (session.append [.text value])
  | .placeholder id => .ok (session.append [.placeholder id])
  | .simple kind id style => .ok (session.append [.argument id (.simple kind style)])
  | .branch selector => .ok (session.branch selector)
  | .close kind id offset => session.close kind id offset
  | .load source =>
    match Message.read source with
    | .ok message => .ok (session.append message)
    | .error cause => .error (.malformed cause)
  | .nest id selector count =>
    let elements := Frame.nest id selector count session.top.elements
    .ok { session with top := { session.top with elements := elements } }
  | .removeLast =>
    .ok { session with top := { session.top with elements := session.top.elements.dropLast } }

/-- A step that fails changes nothing. -/
def advance (session : Session) (s : Step) : Session :=
  match session.step s with
  | .ok next => next
  | .error _ => session

def run (session : Session) (steps : List Step) : Session :=
  steps.foldl advance session

end Session

end IcuMessage

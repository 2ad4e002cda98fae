import SsaKit.Handle
/-!
Ordered chains threaded through an arena. An owner keeps the two ends and the length; each node
keeps its owner and its neighbours, so linking and unlinking touch at most three nodes.
-/
namespace SsaKit

/-- An arena entry with its place in the chain of its owner, if it has one. -/
structure Node (kind owner : Entity) (α : Type) where
  content : α
  parent : Option (Handle owner) := none
  prev : Option (Handle kind) := none
  next : Option (Handle kind) := none

abbrev Arena (kind owner : Entity) (α : Type) := Array (Node kind owner α)

namespace Arena

variable {kind owner : Entity} {α : Type}

def parent? (a : Arena kind owner α) (k : Handle kind) : Option (Handle owner) :=
  a[k.index]?.bind Node.parent

def prev? (a : Arena kind owner α) (k : Handle kind) : Option (Handle kind) :=
  a[k.index]?.bind Node.prev

def next? (a : Arena kind owner α) (k : Handle kind) : Option (Handle kind) :=
  a[k.index]?.bind Node.next

/-- Place a node under an owner, between two neighbours. -/
def place (a : Arena kind owner α) (k : Handle kind) (parent : Option (Handle owner))
    (prev next : Option (Handle kind)) : Arena kind owner α :=
  a.modify k.index fun n => { n with parent, prev, next }

def setPrev (a : Arena kind owner α) (k : Handle kind) (prev : Option (Handle kind)) :
    Arena kind owner α :=
  a.modify k.index fun n => { n with prev }

def setNext (a : Arena kind owner α) (k : Handle kind) (next : Option (Handle kind)) :
    Arena kind owner α :=
  a.modify k.index fun n => { n with next }

/-- Change the content of a node and leave its place alone. -/
def modifyContent (a : Arena kind owner α) (k : Handle kind) (f : α → α) : Arena kind owner α :=
  a.modify k.index fun n => { n with content := f n.content }

end Arena

/-- The ends and the length of a chain. -/
structure Chain (kind : Entity) where
  first : Option (Handle kind) := none
  last : Option (Handle kind) := none
  length : Nat := 0

namespace Chain

variable {kind owner : Entity} {α : Type}

/-- The handles met by following a successor function, at most `n` of them. -/
@[specialize] def follow (step : Handle kind → Option (Handle kind)) :
    Nat → Option (Handle kind) → List (Handle kind)
  | _, none => []
  | 0, some _ => []
  | n + 1, some k => k :: follow step n (step k)

/-- The chain from its first node onwards. -/
def toList (c : Chain kind) (a : Arena kind owner α) : List (Handle kind) :=
  follow a.next? a.size c.first

/-- The chain from its last node backwards. -/
def toListBack (c : Chain kind) (a : Arena kind owner α) : List (Handle kind) :=
  follow a.prev? a.size c.last

/-- Link a node after the last one. -/
def pushBack (c : Chain kind) (a : Arena kind owner α) (parent : Handle owner)
    (k : Handle kind) : Chain kind × Arena kind owner α :=
  let a := a.place k (some parent) c.last none
  match c.last with
  | some last => ({ c with last := some k, length := c.length + 1 }, a.setNext last (some k))
  | none => ({ first := some k, last := some k, length := c.length + 1 }, a)

/-- Link a node right before `anchor`, a node of the chain. -/
def insertBefore (c : Chain kind) (a : Arena kind owner α) (parent : Handle owner)
    (anchor k : Handle kind) : Chain kind × Arena kind owner α :=
  let before := a.prev? anchor
  let a := (a.place k (some parent) before (some anchor)).setPrev anchor (some k)
  match before with
  | some prev => ({ c with length := c.length + 1 }, a.setNext prev (some k))
  | none => ({ c with first := some k, length := c.length + 1 }, a)

/-- Take a node out of the chain; it ends without owner and neighbours. -/
def unlink (c : Chain kind) (a : Arena kind owner α) (k : Handle kind) :
    Chain kind × Arena kind owner α :=
  let prev := a.prev? k
  let next := a.next? k
  let a := a.place k none none none
  let (c, a) := match prev with
    | some p => (c, a.setNext p next)
    | none => ({ c with first := next }, a)
  let (c, a) := match next with
    | some n => (c, a.setPrev n prev)
    | none => ({ c with last := prev }, a)
  ({ c with length := c.length - 1 }, a)

end Chain
end SsaKit

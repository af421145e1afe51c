import PktBaffle.Ast

namespace PktBaffle.Expr

/-- A child of an operator. -/
inductive Child where
  | left
  | right
  | inner
  deriving DecidableEq, Repr

/-- Where a node stands in a tree: the children to go down to from the root. -/
abbrev Place := List Child

/-- A unit-like leaf that fills a slot until it is written. -/
def placeholder : Expr := .primitive .ipBroadcast

def child : Expr → Child → Option Expr
  | .and l _, .left => some l
  | .and _ r, .right => some r
  | .or l _, .left => some l
  | .or _ r, .right => some r
  | .not e, .inner => some e
  | _, _ => none

/-- The node at a place. -/
def at? (root : Expr) : Place → Option Expr
  | [] => some root
  | c :: place => do (← root.child c).at? place

def setChild : Expr → Child → Expr → Expr
  | .and _ r, .left, e => .and e r
  | .and l _, .right, e => .and l e
  | .or _ r, .left, e => .or e r
  | .or l _, .right, e => .or l e
  | .not _, .inner, e => .not e
  | root, _, _ => root

/-- `*dst = node` for a `dst` that borrows the node at a place of `root`. -/
def write (node : Expr) : Place → Expr → Option Expr
  | [], _ => some node
  | c :: place, root => do
    let sub ← write node place (← root.child c)
    return root.setChild c sub

/-- A copy of the node `src` with empty slots for its children. -/
def node : Expr → Expr
  | .and .. => .and placeholder placeholder
  | .or .. => .or placeholder placeholder
  | .not _ => .not placeholder
  | .primitive p => .primitive p

/-- What the copy of `src` at `dst` pushes, the top of the stack first. -/
def slots (src : Expr) (dst : Place) : List (Expr × Place) :=
  match src, node src with
  | .and sl sr, .and .. => [(sl, dst ++ [.left]), (sr, dst ++ [.right])]
  | .or sl sr, .or .. => [(sl, dst ++ [.left]), (sr, dst ++ [.right])]
  | .not s, .not _ => [(s, dst ++ [.inner])]
  | _, _ => []

/-- The loop of `clone`; `fuel` bounds its turns. -/
def cloneLoop : Nat → List (Expr × Place) → Expr → Option Expr
  | _, [], root => some root
  | 0, _ :: _, _ => none
  | fuel + 1, (src, dst) :: stack, root => do
    let root ← write (node src) dst root
    cloneLoop fuel (slots src dst ++ stack) root

/-- The nodes of a tree. -/
def nodes : Expr → Nat
  | .and l r => 1 + l.nodes + r.nodes
  | .or l r => 1 + l.nodes + r.nodes
  | .not e => 1 + e.nodes
  | .primitive _ => 1

def clone (e : Expr) : Option Expr := cloneLoop e.nodes [(e, [])] placeholder

/-- The loop of `eq`; `fuel` bounds its turns. -/
def eqLoop : Nat → List (Expr × Expr) → Option Bool
  | _, [] => some true
  | 0, _ :: _ => none
  | fuel + 1, pair :: stack =>
    match pair with
    | (.and al ar, .and bl br) => eqLoop fuel ((al, bl) :: (ar, br) :: stack)
    | (.or al ar, .or bl br) => eqLoop fuel ((al, bl) :: (ar, br) :: stack)
    | (.not a, .not b) => eqLoop fuel ((a, b) :: stack)
    | (.primitive a, .primitive b) => if a = b then eqLoop fuel stack else some false
    | _ => some false

def eq (a b : Expr) : Option Bool := eqLoop a.nodes [(a, b)]

example : clone (.and (.not (.primitive .inbound)) (.primitive .outbound)) =
    some (.and (.not (.primitive .inbound)) (.primitive .outbound)) := by decide

end PktBaffle.Expr

import SsaCompiler.Graph.Cfg
import SsaCompiler.Marking

/-!
# Reverse postorder

A depth-first walk from the entry visits every reachable block once; the reversed order in which
blocks are left is the order in which the later passes work. Of two successors the first one comes
earlier in that order, because the walk explores the last successor first.
-/

set_option autoImplicit false

namespace SsaCompiler

/-- A pending step of the depth-first walk. -/
inductive Visit
  /-- Enter a block unless it was entered before. -/
  | enter (block : Nat)
  /-- Leave a block whose successors are done. -/
  | leave (block : Nat)
  deriving DecidableEq, Repr

/-- The reachable blocks of a graph in reverse postorder. -/
structure ReversePostorder where
  order : List Nat
  /-- The place of each block in `order`, by block number. -/
  position : Array (Option Nat)
  deriving Repr

namespace ReversePostorder

/-- Works off the pending steps; `left` holds the blocks left so far, the latest first. -/
def walk (g : Cfg) (entered : Array Bool) (left : List Nat) : List Visit → Outcome (List Nat)
  | [] => .ok left
  | .leave b :: rest => walk g entered (b :: left) rest
  | .enter b :: rest =>
    if h : b < entered.size then
      if hb : entered[b] = true then walk g entered left rest
      else
        match g.succs b with
        | .error e => .error e
        | .ok succs =>
          walk g (entered.set b true) left ((succs.map Visit.enter).reverse ++ .leave b :: rest)
    else .crash
termination_by pending => (entered.count false, pending.length)
decreasing_by
  · exact Prod.Lex.right _ (by simp)
  · exact Prod.Lex.right _ (by simp)
  · exact Prod.Lex.left _ _ (count_set_lt_count h (by simpa using hb) (by simp))

/-- The place of each block in a list of blocks, by block number. -/
def positions (order : List Nat) (capacity : Nat) : Array (Option Nat) :=
  order.zipIdx.foldl (fun places e => places.setIfInBounds e.1 (some e.2))
    (Array.replicate capacity none)

/-- The reverse postorder of a graph. -/
def ofCfg (g : Cfg) : Outcome ReversePostorder := do
  let order ← walk g (Array.replicate g.capacity false) [] [.enter g.entry]
  return { order, position := positions order g.capacity }

/-- The place of a block in the order. -/
def position? (r : ReversePostorder) (b : Nat) : Option Nat := r.position[b]?.join

/-- Whether the walk reaches a block. -/
def isReachable (r : ReversePostorder) (b : Nat) : Bool := (r.position? b).isSome

end ReversePostorder

end SsaCompiler

import HiPerf.Book.Model
import HiPerf.Lib.Probe

/-!
The id map of `go/internal/smrcoll/book.go`: a fixed table with Fibonacci
hashing, linear probing and deletion by backward shift. A key is 0 where a place
is empty. A loop is `none` when it does not end.
-/

namespace HiPerf.Go

open Machine

structure IdMap where
  keys : Array Int
  vals : Array Nat
  mask : Nat

/-- `n <<= 1` for as long as `n` is below `bound`. -/
def double (bound : Int) : Nat → Int → Option Int
  | 0, _ => none
  | fuel + 1, n => if n < bound then double bound fuel (i64 (2 * n)) else some n

/-- 64 doublings make any `n` 0, which then stays. -/
def newIDMap (capacity : Int) : Option IdMap :=
  (double (i64 (capacity * 2)) 65 1).map fun n =>
    ⟨Array.replicate n.toNat 0, Array.replicate n.toNat 0, u64 (n - 1)⟩

/-- Where the probing for `k` starts. -/
def ideal (mask : Nat) (k : Int) : Nat :=
  (u64 k * 0x9E3779B97F4A7C15 % 18446744073709551616) &&& mask

namespace IdMap

def after (m : IdMap) (i : Nat) : Nat := (i + 1) &&& m.mask

/-- `(j - i) & m.mask`. -/
def back (m : IdMap) (i j : Nat) : Nat := u64 ((j : Int) - i) &&& m.mask

/-- The loop that `put`, `get` and `del` begin with. -/
def probe (m : IdMap) (k : Int) : Option Nat :=
  Probe.seek m.after (fun i => m.keys[i]? = some 0 || m.keys[i]? = some k) m.keys.size
    (ideal m.mask k)

def put (m : IdMap) (k : Int) (v : Nat) : Option IdMap :=
  (m.probe k).map fun i =>
    { m with keys := m.keys.setIfInBounds i k, vals := m.vals.setIfInBounds i v }

def get (m : IdMap) (k : Int) : Option Nat :=
  if k = 0 then some NIL
  else (m.probe k).bind fun i => if m.keys[i]? = some k then m.vals[i]? else some NIL

/-- The loop of `del` that closes the gap at `i`. -/
def compact : Nat → Nat → Nat → IdMap → Option IdMap
  | 0, _, _, _ => none
  | fuel + 1, i, j, m =>
    match m.keys[m.after j]?, m.vals[m.after j]? with
    | some k, some v =>
      if k = 0 then some m
      else if m.back i (m.after j) ≤ m.back (ideal m.mask k) (m.after j) then
        compact fuel (m.after j) (m.after j)
          { m with
            keys := (m.keys.setIfInBounds i k).setIfInBounds (m.after j) 0
            vals := m.vals.setIfInBounds i v }
      else compact fuel i (m.after j) m
    | _, _ => none

def del (m : IdMap) (k : Int) : Option IdMap :=
  (m.probe k).bind fun i =>
    if m.keys[i]? = some k then
      compact (2 * m.keys.size) i i { m with keys := m.keys.setIfInBounds i 0 }
    else some m

end IdMap

inductive IdOp
  | put (k : Int) (v : Nat)
  | get (k : Int)
  | del (k : Int)

namespace IdOp

def key : IdOp → Int
  | put k _ => k
  | get k => k
  | del k => k

def apply (m : IdMap) : IdOp → Option IdMap
  | put k v => m.put k v
  | get k => (m.get k).map fun _ => m
  | del k => m.del k

end IdOp

def IdMap.run (m : IdMap) (ops : List IdOp) : Option IdMap := ops.foldlM IdOp.apply m

end HiPerf.Go

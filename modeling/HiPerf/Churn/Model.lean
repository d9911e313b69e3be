import HiPerf.Book.Model
import HiPerf.Lib.Draw

/-!
The churn workload of `smr-collections/common/src/churn.rs`, with the random
numbers of `rng.rs` and the draws of `book.rs`: a stream of inserts, cancels and
fills that the experiments drive into a store.
-/

namespace HiPerf

open Machine

/-- A splitmix64 generator. -/
structure SplitMix where
  state : UInt64
  deriving DecidableEq, Repr

def SEED : UInt64 := 0x123456789ABCDEF0

def SplitMix.next (g : SplitMix) : UInt64 × SplitMix :=
  let state := g.state + 0x9E3779B97F4A7C15
  let z := (state ^^^ (state >>> 30)) * 0xBF58476D1CE4E5B9
  let z := (z ^^^ (z >>> 27)) * 0x94D049BB133111EB
  (z ^^^ (z >>> 31), ⟨state⟩)

/-- The golden first output. -/
example : (SplitMix.next ⟨SEED⟩).1 = 0x161922c645ce50e8 := by decide

structure Insert where
  orderId : Int
  price : Int
  qty : Int
  side : Nat
  deriving DecidableEq, Repr

inductive ChurnOp where
  | insert (orderId price qty : Int) (side : Nat)
  | cancel (orderId : Int)
  | fill (orderId : Int)
  deriving DecidableEq, Repr

/-- The call on a store that applies an op. -/
def ChurnOp.call : ChurnOp → Op
  | .insert orderId price qty side => .insert orderId price qty side
  | .cancel orderId => .cancel orderId
  | .fill orderId => .fill orderId

structure Churn where
  rng : SplitMix
  live : List Int
  i : Nat
  otrBps : Nat
  levels : Nat
  tick : Int
  priceMin : Int
  deriving Repr

namespace Churn

def new (cfg : SmrConfig) : Churn where
  rng := ⟨SEED⟩
  live := []
  i := 0
  otrBps := cfg.otrBps
  levels := cfg.levels
  tick := cfg.tick
  priceMin := cfg.priceMin

/-- `self.rng.next()`. -/
def draw : Run Churn UInt64 := fun c => .ok c.rng.next.1 { c with rng := c.rng.next.2 }

/-- The i-th insert; the index wraps into the order id. -/
def nextInsert (i nLevels : Nat) (tick priceMin : Int) : Run Churn Insert := do
  let r1 ← draw
  let r2 ← draw
  if nLevels = 0 then throw .divideByZero
  let t := r1.toNat % nLevels
  return {
    orderId := i64 (i64 i + 1)
    price := i64 (priceMin + i64 (t * tick))
    qty := 1 + (r2.toNat % 1000 : Nat)
    side := ((r1 >>> 32) &&& 1).toNat }

def insertOp : Run Churn ChurnOp := do
  let c ← get
  let ins ← nextInsert c.i c.levels c.tick c.priceMin
  modify fun c => { c with i := (c.i + 1) % 18446744073709551616 }
  modify fun c => { c with live := c.live ++ [ins.orderId] }
  return .insert ins.orderId ins.price ins.qty ins.side

/-- `self.live[v]`. -/
def liveAt (v : Nat) : Run Churn Int := fun c =>
  match c.live[v]? with
  | some orderId => .ok orderId c
  | none => .error .indexOutOfBounds c

/-- Even index inserts, odd index departs, as a fill or as a cancel. -/
def nextOp : Run Churn ChurnOp := do
  let c ← get
  if c.i % 2 = 0 ∨ c.live = [] then
    insertOp
  else
    modify fun c => { c with i := (c.i + 1) % 18446744073709551616 }
    let r ← draw
    let v := r.toNat % c.live.length
    let orderId ← liveAt v
    let r' ← draw
    modify fun c => { c with live := Draw.swapRemove c.live v }
    return if r'.toNat % 10000 < c.otrBps then .fill orderId else .cancel orderId

/-- The ops of `n` calls of a generator. -/
def repeated (next : Run Churn ChurnOp) : Nat → Run Churn (List ChurnOp)
  | 0 => return []
  | n + 1 => do
    let ops ← repeated next n
    let op ← next
    return ops ++ [op]

/-- Inserts only, up to the steady-state live set: the ops handed to the store. -/
def prebuild (steady : Nat) : Run Churn (List ChurnOp) := repeated insertOp steady

/-- The ops of `n` calls of `nextOp`. -/
def nextOps (n : Nat) : Run Churn (List ChurnOp) := repeated nextOp n

end Churn

end HiPerf

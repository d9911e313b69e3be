import HiPerf.Churn.Model
import HiPerf.Lib.Collect

/-!
The churn stream of `go/internal/smrcoll/churn.go`, with the draws of `rng.go`. Its op index is
a signed 64-bit integer.
-/

namespace HiPerf.Go

open Machine Exec

structure Churn where
  rng : SplitMix
  live : List Int
  i : Int
  otrBps : Nat
  levels : Nat
  tick : Int
  priceMin : Int

def newChurn (cfg : SmrConfig) : Churn where
  rng := ⟨SEED⟩
  live := []
  i := 0
  otrBps := cfg.otrBps
  levels := cfg.levels
  tick := cfg.tick
  priceMin := cfg.priceMin

namespace Churn

/-- `c.rng.Next()`. -/
def next : Run Churn UInt64 := fun c => .ok c.rng.next.1 { c with rng := c.rng.next.2 }

def nextInsert (i : Int) (nLevels : Nat) (tick priceMin : Int) : Run Churn Insert := do
  let r1 ← next
  let r2 ← next
  if nLevels = 0 then throw .divideByZero
  let t := r1.toNat % nLevels
  let side := ((r1 >>> 32) &&& 1).toNat
  return {
    orderId := i64 (i + 1)
    price := i64 (priceMin + i64 (t * tick))
    qty := 1 + (r2.toNat % 1000 : Nat)
    side }

def insertOp : Run Churn ChurnOp := do
  let c ← get
  let ins ← nextInsert c.i c.levels c.tick c.priceMin
  modify fun c => { c with i := i64 (c.i + 1) }
  modify fun c => { c with live := c.live ++ [ins.orderId] }
  return .insert ins.orderId ins.price ins.qty ins.side

/-- `c.live[v]`, read. -/
def liveAt (v : Nat) : Run Churn Int := fun c =>
  match c.live[v]? with
  | some id => .ok id c
  | none => .error .indexOutOfBounds c

def nextOp : Run Churn ChurnOp := do
  let c ← get
  if c.i.tmod 2 = 0 ∨ c.live.length = 0 then
    insertOp
  else
    modify fun c => { c with i := i64 (c.i + 1) }
    let r ← next
    let v := r.toNat % c.live.length
    let id ← liveAt v
    let isFill := (← next).toNat % 10000 < c.otrBps
    let lastId ← liveAt (c.live.length - 1)
    modify fun c => { c with live := (c.live.set v lastId).take (c.live.length - 1) }
    return if isFill then .fill id else .cancel id

def prebuild (steady : Nat) : Run Churn (List ChurnOp) := collect insertOp steady

/-- The ops of `n` calls of `NextOp`. -/
def nextOps (n : Nat) : Run Churn (List ChurnOp) := collect nextOp n

end Churn

end HiPerf.Go

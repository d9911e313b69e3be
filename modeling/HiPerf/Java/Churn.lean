import HiPerf.Churn.Model
import HiPerf.Lib.Collect

/-!
The churn stream of `Churn.java`, with the draws of `Workload.java`. Longs are signed, the op
index has 32 bits, and the live ids are the front of an array that does not grow.
-/

namespace HiPerf.Java

open Machine Exec

/-- `x >>> k` of a long. -/
def ushr (x : Int64) (k : UInt64) : Int64 := (x.toUInt64 >>> k).toInt64

/-- `Long.remainderUnsigned`. -/
def remainderUnsigned (x n : Int64) : Int64 := (x.toUInt64 % n.toUInt64).toInt64

/-- `Workload.SplitMix`. -/
structure SplitMix where
  state : Int64

def SplitMix.next (g : SplitMix) : Int64 × SplitMix :=
  let state := g.state + (0x9E3779B97F4A7C15 : UInt64).toInt64
  let z := (state ^^^ ushr state 30) * (0xBF58476D1CE4E5B9 : UInt64).toInt64
  let z := (z ^^^ ushr z 27) * (0x94D049BB133111EB : UInt64).toInt64
  (z ^^^ ushr z 31, ⟨state⟩)

structure Churn where
  rng : SplitMix
  live : Array Int
  liveN : Int
  i : Int
  otrBps : Int
  levels : Int
  tick : Int
  priceMin : Int

/-- The constructor. The length of `live` is computed in 32 bits. -/
def newChurn (cfg : SmrConfig) : Except Panic Churn :=
  if i32 (cfg.cap + 1) < 0 then throw (.message "negative array size") else
    return {
      rng := ⟨SEED.toInt64⟩
      live := Array.replicate (cfg.cap + 1) 0
      liveN := 0
      i := 0
      otrBps := cfg.otrBps
      levels := cfg.levels
      tick := cfg.tick
      priceMin := cfg.priceMin }

namespace Churn

/-- `rng.next()`. -/
def next : Run Churn Int64 := fun c => .ok c.rng.next.1 { c with rng := c.rng.next.2 }

/-- `Workload.nextInsert`. -/
def nextInsert (i nLevels tick priceMin : Int) : Run Churn Insert := do
  let r1 ← next
  let r2 ← next
  if nLevels = 0 then throw .divideByZero
  let t := (remainderUnsigned r1 (Int64.ofInt nLevels)).toInt
  return {
    side := (ushr r1 32 &&& 1).toInt.toNat
    orderId := i32 (i + 1)
    price := i64 (priceMin + i64 (t * tick))
    qty := i64 (1 + (remainderUnsigned r2 1000).toInt) }

/-- `live[v]`, read. -/
def liveAt (v : Int) : Run Churn Int := fun c =>
  if 0 ≤ v ∧ v < c.live.size then .ok (c.live[v.toNat]?.getD 0) c
  else .error .indexOutOfBounds c

/-- `live[v]`, written. -/
def setLive (v id : Int) : Run Churn Unit := fun c =>
  if 0 ≤ v ∧ v < c.live.size then .ok () { c with live := c.live.setIfInBounds v.toNat id }
  else .error .indexOutOfBounds c

def insertOp : Run Churn ChurnOp := do
  let c ← get
  let scratch ← nextInsert c.i c.levels c.tick c.priceMin
  modify fun c => { c with i := i32 (c.i + 1) }
  modify fun c => { c with liveN := i32 (c.liveN + 1) }
  setLive c.liveN scratch.orderId
  return .insert scratch.orderId scratch.price scratch.qty scratch.side

def nextOp : Run Churn ChurnOp := do
  let c ← get
  if c.i.tmod 2 = 0 ∨ c.liveN = 0 then
    insertOp
  else
    modify fun c => { c with i := i32 (c.i + 1) }
    let v := i32 (remainderUnsigned (← next) (Int64.ofInt c.liveN)).toInt
    let id ← liveAt v
    let isFill := (remainderUnsigned (← next) 10000).toInt < c.otrBps
    let lastId ← liveAt (c.liveN - 1)
    setLive v lastId
    modify fun c => { c with liveN := c.liveN - 1 }
    return if isFill then .fill id else .cancel id

def prebuild (steady : Nat) : Run Churn (List ChurnOp) := collect insertOp steady

/-- The ops of `n` calls of `nextOp`. -/
def nextOps (n : Nat) : Run Churn (List ChurnOp) := collect nextOp n

end Churn

end HiPerf.Java

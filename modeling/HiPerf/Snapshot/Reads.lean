import HiPerf.Lib.Lockstep
import HiPerf.Snapshot.Restore

/-!
Two decoders that read the same data, whatever books they have under way.
-/

namespace HiPerf.Decoder

open Machine Exec

variable {strict : Prop} {σ τ α : Type} {I : σ → τ → Prop}

/-- A field of the data is the same whoever reads it. -/
theorem read_lockstep (f : List UInt8 → α) (data : List UInt8) (i k : Nat) :
    Lockstep strict I (do return f (← Decoder.get data i k) : Restoring σ α)
      (do return f (← Decoder.get data i k) : Restoring τ α) := by
  refine Lockstep.bind ?_ fun _ => Lockstep.pure _
  exact Lockstep.ite Iff.rfl (fun _ => Lockstep.pure _) fun _ => Lockstep.throw _ _

end HiPerf.Decoder

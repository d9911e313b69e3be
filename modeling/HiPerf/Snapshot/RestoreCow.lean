import HiPerf.Cow.Mirror
import HiPerf.Snapshot.RoundTrip

/-!
The two decoders side by side: what `restore_cow` puts into chunks is what
`restore` puts into the arrays.
-/

namespace HiPerf

open Machine Exec Bytes Decoder

variable {cap : Nat}

/-- A call carried into the decoders stops, or not, as it does by itself. -/
theorem lift_meets {strict : Prop} {σ τ α : Type} {J I : σ → τ → Prop} {x : Run σ α} {y : Run τ α}
    (h : Meets strict J I x y) : Meets strict J I (lift x) (lift y) := by
  have hok : ∀ {σ : Type} {x : Run σ α} {s s' : σ} {a : α},
      lift x s = .ok a s' ↔ x s = .ok a s' := by
    intro σ x s s' a
    unfold lift
    cases x s with
    | ok b s₁ => simp
    | error p s₁ => simp
  intro s t hst
  simp only [hok]
  exact h s t hst

theorem lift_lockstep {strict : Prop} {σ τ α : Type} {I : σ → τ → Prop} {x : Run σ α} {y : Run τ α}
    (h : Lockstep strict I x y) : Lockstep strict I (lift x) (lift y) := lift_meets h

namespace CowBook

/-- Overwriting a whole level. -/
theorem levelMut_set (side t : Nat) (l : PriceLevel) :
    Tracks cap (levelMut side t (fun _ => l) >>= fun _ => pure ()) (Book.setLevel side t l) := by
  have e : Book.setLevel side t l = (Book.level side t >>= fun _ => Book.setLevel side t l) := by
    funext b
    cases eb : (b.lane side)[t]? with
    | none =>
      have hge : ¬ t < (b.lane side).size := by simpa using eb
      have e₁ : Book.level side t b = .error .indexOutOfBounds b := by simp only [Book.level, eb]
      rw [bind_error e₁, Book.setLevel, if_neg hge]
    | some l' =>
      have e₁ : Book.level side t b = .ok l' b := by simp only [Book.level, eb]
      rw [bind_ok e₁]
  rw [e]
  exact levelMut_last side t _

theorem putLevel_tracks (side t : Nat) (l : PriceLevel) :
    Tracks cap (sink.putLevel side t l) (Book.sink.putLevel side t l) := levelMut_set side t l

theorem putOrder_tracks (slot : Nat) (o : Order) :
    Tracks cap (sink.putOrder slot o) (Book.sink.putOrder slot o) :=
  orderMut_set (Lockstep.ite Iff.rfl
    (fun _ => Lockstep.modify fun w b h => { h with idmap := by rw [h.idmap] })
    fun _ => Lockstep.pure _)

theorem putRecords_tracks (m : Image) : Lockstep (cap < 4294967296) (Mirrors cap)
    (putRecords sink m) (putRecords Book.sink m) :=
  (Lockstep.each (fun r : LevelRec => lift_lockstep (putLevel_tracks r.1 r.2.1 r.2.2)) _).bind
    fun _ => Lockstep.each (fun r : OrderRec => lift_lockstep (putOrder_tracks r.1 r.2)) _

theorem setScalars_mirrors {w : CowBook} {b : Book} (h : Mirrors cap w b) {s : Scalars}
    (hs : s.hwm < 4294967296) : Mirrors cap (setScalars sink s w) (setScalars Book.sink s b) :=
  { h with
    priceMin := rfl
    tick := rfl
    nLevels := rfl
    hwm := rfl
    hwm_lt := hs
    bestBid := rfl
    bestAsk := rfl
    freeHead := rfl }

theorem message_tracks {m : Image} (hm : m.Plain) (c : Nat) :
    Lockstep (cap < 4294967296) (Mirrors cap) (message sink (bytes m.fields) c)
      (message Book.sink (bytes m.fields) c) := by
  intro w b h
  rw [message_image sink hm, message_image Book.sink hm]
  split
  · exact putRecords_tracks m _ _ (setScalars_mirrors h hm.scalars.hwm)
  · exact ⟨fun a w' e => (nomatch e), fun _ a b' e => (nomatch e)⟩

/-- Both decoders restore an image, or neither does; the books then show the same. -/
theorem restoreCow_sealed {cfg : SmrConfig} (hchunk : 1 ≤ cfg.chunk) (crc32c : List UInt8 → UInt32)
    {m : Image} (hm : m.Plain) :
    (∀ y, restoreCow crc32c (Encoder.sealed crc32c m) cfg = .ok y →
      ∃ x, Book.restore crc32c (Encoder.sealed crc32c m) cfg = .ok x ∧ Mirrors cfg.cap y x) ∧
    (cfg.cap < 4294967296 →
      ∀ x, Book.restore crc32c (Encoder.sealed crc32c m) cfg = .ok x →
        ∃ y, restoreCow crc32c (Encoder.sealed crc32c m) cfg = .ok y ∧ Mirrors cfg.cap y x) := by
  obtain ⟨w₀, e₀, h₀⟩ := new_mirrors hchunk
  have hinto : ∀ {σ : Type} {S : Sink σ} {buf : List UInt8} {c : Nat} {s x : σ},
      into S buf c s = .ok x ↔ message S buf c s = .ok () x := by
    intro σ S buf c s x
    unfold into
    cases message S buf c s with
    | ok a s' => exact ⟨fun e => by cases e; rfl, fun e => by cases e; rfl⟩
    | error p s' => exact ⟨fun e => (nomatch e), fun e => (nomatch e)⟩
  have hcow : restoreCow crc32c (Encoder.sealed crc32c m) cfg =
      into sink (bytes m.fields) cfg.cap w₀ := by
    rw [restoreCow, checked_sealed, e₀]
    rfl
  have hbook : Book.restore crc32c (Encoder.sealed crc32c m) cfg =
      into Book.sink (bytes m.fields) cfg.cap (Book.new cfg) := by
    rw [Book.restore, checked_sealed]
    rfl
  obtain ⟨hforth, hback⟩ := message_tracks hm cfg.cap _ _ h₀
  rw [hcow, hbook]
  refine ⟨fun y e => ?_, fun hcap x e => ?_⟩
  · obtain ⟨x, e', h⟩ := hforth () y (hinto.mp e)
    exact ⟨x, hinto.mpr e', h⟩
  · obtain ⟨y, e', h⟩ := hback hcap () x (hinto.mp e)
    exact ⟨y, hinto.mpr e', h⟩

end CowBook

end HiPerf

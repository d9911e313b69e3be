import HiPerf.Snapshot.CowImage
import HiPerf.Snapshot.Restart

/-!
Books whose lanes are longer than their ladder, as a restore under another
configuration leaves them: the levels beyond the ladder stay empty and are not
in the image.
-/

namespace HiPerf

open Machine Exec

namespace Encoder

/-- Level `t` and the `n - 1` after it are there, and empty. -/
def Empty (level : Nat → Option PriceLevel) (t n : Nat) : Prop :=
  ∀ u, t ≤ u → u < t + n → ∃ l, level u = some l ∧ l.head = NIL

variable {level level' : Nat → Option PriceLevel} {side t n m : Nat}

theorem countLane_empty (h : Empty level t n) (c : Nat) : countLane level t n c = pure c := by
  induction n generalizing t with
  | zero => rfl
  | succ n ih =>
    obtain ⟨l, hl, hnil⟩ := h t (Nat.le_refl _) (by omega)
    have hrest : Empty level (t + 1) n := fun u h₁ h₂ => h u (by omega) (by omega)
    rw [countLane, hl]
    simp only [read, pure_bind, hnil, ne_eq, not_true, if_false]
    exact ih hrest

theorem putLane_empty (h : Empty level t n) : putLane side level t n = pure () := by
  induction n generalizing t with
  | zero => rfl
  | succ n ih =>
    obtain ⟨l, hl, hnil⟩ := h t (Nat.le_refl _) (by omega)
    have hrest : Empty level (t + 1) n := fun u h₁ h₂ => h u (by omega) (by omega)
    rw [putLane, hl]
    simp only [read, pure_bind, hnil, if_true]
    exact ih hrest

/-- Empty levels behind the others are not counted. -/
theorem countLane_trim (hsame : ∀ u, t ≤ u → u < t + n → level u = level' u)
    (h : Empty level (t + n) m) (c : Nat) : countLane level t (n + m) c = countLane level' t n c := by
  induction n generalizing t c with
  | zero =>
    rw [Nat.zero_add]
    exact countLane_empty h c
  | succ n ih =>
    have hrest := fun c => ih (t := t + 1) (fun u h₁ h₂ => hsame u (by omega) (by omega))
      (by rw [Nat.add_right_comm, Nat.add_assoc]; exact h) c
    rw [Nat.add_right_comm n 1 m, countLane, countLane, hsame t (Nat.le_refl _) (by omega)]
    simp only [hrest]

/-- Nor are they written. -/
theorem putLane_trim (hsame : ∀ u, t ≤ u → u < t + n → level u = level' u)
    (h : Empty level (t + n) m) : putLane side level t (n + m) = putLane side level' t n := by
  induction n generalizing t with
  | zero =>
    rw [Nat.zero_add]
    exact putLane_empty h
  | succ n ih =>
    have hrest := ih (t := t + 1) (fun u h₁ h₂ => hsame u (by omega) (by omega))
      (by rw [Nat.add_right_comm, Nat.add_assoc]; exact h)
    rw [Nat.add_right_comm n 1 m, putLane, putLane, hsame t (Nat.le_refl _) (by omega)]
    simp only [hrest]

/-- What two sources have in common when one shows further, empty levels. -/
structure Trims (v v' : Source) : Prop where
  scalars : v.scalars = v'.scalars
  order : v.order = v'.order
  width : ∀ side ≤ 1, v'.width side ≤ v.width side
  count : ∀ side ≤ 1, ∀ t < v'.width side, v.countLevel side t = v'.countLevel side t
  level : ∀ side ≤ 1, ∀ t < v'.width side, v.level side t = v'.level side t
  beyond : ∀ side ≤ 1, ∀ t, v'.width side ≤ t → t < v.width side →
    ∃ l, v.countLevel side t = some l ∧ v.level side t = some l ∧ l.head = NIL

theorem encode_trim {v v' : Source} (h : Trims v v') (crc32c : List UInt8 → UInt32)
    (buf : List UInt8) : encode crc32c v buf = encode crc32c v' buf := by
  have hcount : ∀ side ≤ 1, ∀ c, countLane (v.countLevel side) 0 (v.width side) c =
      countLane (v'.countLevel side) 0 (v'.width side) c := by
    intro side hs c
    rw [← Nat.add_sub_of_le (h.width side hs)]
    refine countLane_trim (fun u _ hu => h.count side hs u (by omega)) (fun u h₁ h₂ => ?_) c
    obtain ⟨l, hl, -, hnil⟩ := h.beyond side hs u (by omega) (by omega)
    exact ⟨l, hl, hnil⟩
  have hput : ∀ side ≤ 1, putLane side (v.level side) 0 (v.width side) =
      putLane side (v'.level side) 0 (v'.width side) := by
    intro side hs
    rw [← Nat.add_sub_of_le (h.width side hs)]
    refine putLane_trim (fun u _ hu => h.level side hs u (by omega)) fun u h₁ h₂ => ?_
    obtain ⟨l, -, hl, hnil⟩ := h.beyond side hs u (by omega) (by omega)
    exact ⟨l, hl, hnil⟩
  have hmessage : message v = message v' := by
    unfold message
    simp only [hcount 0 (by omega), hcount 1 (by omega), hput 0 (by omega), hput 1 (by omega),
      h.scalars, h.order]
  rw [encode, encode, hmessage]

end Encoder

namespace Book

variable {cap : Nat} {b x : Book} {f : Flat}

/-- Two books that show the same, one of them with no spare levels. -/
theorem trims (hx : x.Shows cap f) (hb : b.Shows cap f) (hnarrow : b.Narrow) :
    Encoder.Trims x.source b.source := by
  have hv : x.view = b.view := hx.view.trans hb.view.symm
  have hn : x.nLevels = b.nLevels := congrArg (fun f : Flat => f.grid.nLevels) hv
  have hwidth : ∀ side, (b.lane side).size = b.nLevels := hnarrow.lane_size
  have hle : ∀ side, b.nLevels ≤ (x.lane side).size := by
    intro side
    have := hx.lane_size side
    rw [← hx.view, hv] at this
    exact this
  have hlvl : ∀ side t : Nat, (x.lane side)[t]?.getD PriceLevel.EMPTY =
      (b.lane side)[t]?.getD PriceLevel.EMPTY := by
    intro side t
    rw [lane_view, lane_view, hv]
  have hlevel : ∀ side t : Nat, t < b.nLevels → (x.lane side)[t]? = (b.lane side)[t]? := by
    intro side t ht
    have := hlvl side t
    rw [Array.getElem?_eq_getElem (Nat.lt_of_lt_of_le ht (hle side)),
      Array.getElem?_eq_getElem (by rw [hwidth]; exact ht)] at this ⊢
    exact congrArg some this
  refine ⟨?_, funext fun s => ?_, fun side _ => ?_, fun side _ t ht => ?_, fun side _ t ht => ?_,
    fun side _ t h₁ h₂ => ?_⟩
  · have := hx.pool.trans hb.pool.symm
    simp only [view, Flat.mk.injEq, Grid.mk.injEq] at hv
    simp only [source, Scalars.mk.injEq]
    exact ⟨hv.1.1, hv.1.2.1, hv.1.2.2, by rw [this], hv.2.2.2.1, hv.2.2.2.2.2.1, hv.2.2.2.2.2.2.1,
      hv.2.2.2.2.1⟩
  · have hord : x.pool[s]?.getD Order.zero = b.pool[s]?.getD Order.zero :=
      congrArg (fun f : Flat => f.ord s) hv
    change x.pool[s]? = b.pool[s]?
    by_cases hs : s < cap
    · rw [Array.getElem?_eq_getElem (by rw [hx.pool]; exact hs),
        Array.getElem?_eq_getElem (by rw [hb.pool]; exact hs)] at hord ⊢
      exact congrArg some hord
    · rw [Array.getElem?_eq_none (by rw [hx.pool]; omega),
        Array.getElem?_eq_none (by rw [hb.pool]; omega)]
  · exact (hwidth side).le.trans (hle side)
  · exact hlevel side t (ht.trans_eq (hwidth side))
  · exact hlevel side t (ht.trans_eq (hwidth side))
  · have h₂' : t < (x.lane side).size := h₂
    have he := Array.getElem?_eq_getElem h₂'
    refine ⟨_, he, he, ?_⟩
    have hl := hlvl side t
    rw [he, Array.getElem?_eq_none h₁, Option.getD_some, Option.getD_none] at hl
    rw [hl]
    rfl

theorem encode_same (hx : x.Shows cap f) (hb : b.Shows cap f) (hnarrow : b.Narrow)
    (crc32c : List UInt8 → UInt32) (buf : List UInt8) :
    x.encode crc32c buf = b.encode crc32c buf :=
  Encoder.encode_trim (trims hx hb hnarrow) crc32c buf

end Book

/-- The root of a copy-on-write book, which reads no spare levels, is encoded as
a book without them. -/
theorem CowBook.Mirrors.encodeRoot_same {cap : Nat} {y : CowBook} {x b : Book} {f : Flat}
    (h : CowBook.Mirrors cap y x) (hx : x.Shows cap f) (hb : b.Shows cap f) (hnarrow : b.Narrow)
    (crc32c : List UInt8 → UInt32) (buf : List UInt8) :
    HiPerf.encodeRoot crc32c y.root (fun _ => y.mem) buf = b.encode crc32c buf := by
  have ht := Book.trims hx hb hnarrow
  have hn : y.nLevels = b.nLevels := by
    rw [h.nLevels]
    exact congrArg (fun f : Flat => f.grid.nLevels) (hx.view.trans hb.view.symm)
  have hwidth : ∀ side, b.source.width side = b.nLevels := hnarrow.lane_size
  have hlevel : ∀ side ≤ 1, ∀ t < b.source.width side, y.level? side t = b.source.level side t :=
    fun side hs t hlt => (h.level side t).trans (ht.level side hs t hlt)
  have htrims : Encoder.Trims (y.root.source fun _ => y.mem) b.source := by
    refine ⟨?_, ?_, fun side _ => ?_, hlevel, hlevel, fun side _ t h₁ h₂ => ?_⟩
    · rw [← ht.scalars]
      simp only [Root.source, Book.source, CowBook.root, h.priceMin, h.tick, h.nLevels, h.capacity,
        h.pool, h.hwm, h.bestBid, h.bestAsk, h.freeHead]
    · rw [← ht.order]
      exact funext h.order
    · exact Nat.le_of_eq ((hwidth side).trans hn.symm)
    · rw [hwidth] at h₁
      have : t < y.nLevels := h₂
      omega
  exact Encoder.encode_trim htrims crc32c buf

end HiPerf

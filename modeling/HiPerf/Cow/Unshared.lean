import HiPerf.Snapshot.CowImage
import HiPerf.Snapshot.Restore

/-!
Why the writes through `Arc::as_ptr` are sound. A chunk counts its references: the
places that hold it in the tables of the book and of every root that is alive.
A chunk of the current generation has one, whatever was captured and dropped, and
a write accessor writes to no other.
-/

namespace HiPerf

open Machine Exec Epoch

/-- A book and the roots that were captured from it and are not dropped yet. -/
structure Shared where
  book : CowBook
  roots : List Root

inductive Action where
  | op (op : Op)
  | capture
  | drop (i : Nat)

namespace Action

def captures : List Action → Nat
  | [] => 0
  | .capture :: as => captures as + 1
  | .op _ :: as => captures as
  | .drop _ :: as => captures as

end Action

namespace Shared

/-- A call that stops leaves the book as far as it had come. -/
def act (s : Shared) : Action → Shared
  | .op op => { s with book := last (CowBook.apply op) s.book }
  | .capture => ⟨last CowBook.capture s.book, s.roots ++ [s.book.root]⟩
  | .drop i => { s with roots := s.roots.eraseIdx i }

def acts (s : Shared) (as : List Action) : Shared := as.foldl act s

/-- `Arc::strong_count` of the order chunk at `a`. -/
def orderCount (s : Shared) (a : Nat) : Nat :=
  s.book.orderChunks.count a + (s.roots.map fun r => r.orderChunks.count a).sum

/-- `Arc::strong_count` of the level chunk at `a`. -/
def levelCount (s : Shared) (a : Nat) : Nat :=
  s.book.bidChunks.count a + s.book.askChunks.count a +
    (s.roots.map fun r => r.bidChunks.count a + r.askChunks.count a).sum

/-- What the epochs say about the references. -/
structure EpochInvariant (s : Shared) : Prop where
  roots : ∀ r ∈ s.roots, Born (· < s.book.gen) s.book.mem.orders r.orderChunks ∧
    Born (· < s.book.gen) s.book.mem.levels r.bidChunks ∧
    Born (· < s.book.gen) s.book.mem.levels r.askChunks
  tables : Born (· ≤ s.book.gen) s.book.mem.orders s.book.orderChunks ∧
    ∀ side, Born (· ≤ s.book.gen) s.book.mem.levels (s.book.lane side)
  orders : ∀ ci a : Nat, s.book.orderChunks[ci]? = some a →
    (s.book.mem.orders[a]?).map Chunk.born = some s.book.gen → s.orderCount a = 1
  levels : ∀ side ci a : Nat, (s.book.lane side)[ci]? = some a →
    (s.book.mem.levels[a]?).map Chunk.born = some s.book.gen → s.levelCount a = 1

end Shared

namespace CowBook

/-- One step of a call while `roots` are alive: a change that leaves the chunks alone,
or a write accessor whose in-place write goes to a chunk of strong count 1. -/
inductive Touch (roots : List Root) (w : CowBook) : CowBook → Prop
  | scalars {w' : CowBook} : SameCells w w' → Touch roots w w'
  | order (slot : Nat) (write : Order → Order) :
      (∀ heap table a, own w.mem.orders w.orderChunks w.gen (slot / w.chunk) = some (heap, table) →
        table[slot / w.chunk]? = some a → Shared.orderCount ⟨w.setOrders heap table, roots⟩ a = 1) →
      Touch roots w (last (orderMut slot write) w)
  | level (side t : Nat) (write : PriceLevel → PriceLevel) :
      (∀ heap table a, own w.mem.levels (w.lane side) w.gen (t / LEVEL_CHUNK) = some (heap, table) →
        table[t / LEVEL_CHUNK]? = some a →
          Shared.levelCount ⟨w.setLevels side heap table, roots⟩ a = 1) →
      Touch roots w (last (levelMut side t write) w)

/-- Any number of such steps. -/
abbrev Touches (roots : List Root) : CowBook → CowBook → Prop := Relation.ReflTransGen (Touch roots)

/-- Where a book comes from. -/
def Starts (w : CowBook) : Prop :=
  (∃ cfg, new cfg = .ok w) ∨ ∃ crc32c image cfg, restoreCow crc32c image cfg = .ok w

end CowBook

variable {w w' : CowBook} {roots : List Root}

/-- No chunk is of a later generation, and none of this one is referred to by a root. -/
structure Shared.Sound (s : Shared) : Prop extends s.book.Tabled where
  aged : s.book.Aged
  roots : ∀ r ∈ s.roots, Born (· < s.book.gen) s.book.mem.orders r.orderChunks ∧
    Born (· < s.book.gen) s.book.mem.levels r.bidChunks ∧
    Born (· < s.book.gen) s.book.mem.levels r.askChunks

namespace Shared.Sound

/-- While the generation lasts, old chunks stay as they are. -/
theorem later (h : Sound ⟨w, roots⟩) (ht : w'.Tabled) (hl : CowBook.Later 0 w w') :
    Sound ⟨w', roots⟩ := by
  have hgen : w'.gen = w.gen := Nat.le_antisymm hl.le_gen hl.gen_le
  refine ⟨ht, hl.keepsAged h.aged, fun r hr => ?_⟩
  obtain ⟨ho, hb, ha⟩ := h.roots r hr
  change Born (· < w'.gen) _ _ ∧ Born (· < w'.gen) _ _ ∧ Born (· < w'.gen) _ _
  rw [hgen]
  exact ⟨hl.orders.born ho, hl.levels.born hb, hl.levels.born ha⟩

theorem orderCount_eq_one (h : Sound ⟨w, roots⟩) {ci a : Nat} {c : Chunk Order}
    (ha : w.orderChunks[ci]? = some a) (hc : w.mem.orders[a]? = some c) (hb : w.gen ≤ c.born) :
    orderCount ⟨w, roots⟩ a = 1 := by
  have hroots : (roots.map fun r => r.orderChunks.count a).sum = 0 := by
    refine List.sum_eq_zero_iff_forall_eq_nat.mpr fun n hn => ?_
    obtain ⟨r, hr, rfl⟩ := List.mem_map.mp hn
    exact (h.roots r hr).1.count_eq_zero hc hb
  rw [orderCount, hroots, h.orders.count_eq_one ha]

theorem levelCount_eq_one (h : Sound ⟨w, roots⟩) {side ci a : Nat} {c : Chunk PriceLevel}
    (ha : (w.lane side)[ci]? = some a) (hc : w.mem.levels[a]? = some c) (hb : w.gen ≤ c.born) :
    levelCount ⟨w, roots⟩ a = 1 := by
  have hroots : (roots.map fun r => r.bidChunks.count a + r.askChunks.count a).sum = 0 := by
    refine List.sum_eq_zero_iff_forall_eq_nat.mpr fun n hn => ?_
    obtain ⟨r, hr, rfl⟩ := List.mem_map.mp hn
    have hbid := (h.roots r hr).2.1.count_eq_zero hc hb
    have hask := (h.roots r hr).2.2.count_eq_zero hc hb
    omega
  have hlanes : w.bidChunks.count a + w.askChunks.count a = 1 := by
    unfold CowBook.lane at ha
    split at ha
    · rw [h.bids.count_eq_one ha, h.apart.count_eq_zero ha]
    · rw [h.asks.count_eq_one ha, h.apart.symm.count_eq_zero ha]
  rw [levelCount, hroots, hlanes]

/-- The order accessor writes to a chunk that the table alone refers to. -/
theorem order (h : Sound ⟨w, roots⟩) (slot : Nat) (write : Order → Order) :
    Sound ⟨last (CowBook.orderMut slot write) w, roots⟩ ∧
      CowBook.Touch roots w (last (CowBook.orderMut slot write) w) := by
  refine ⟨h.later (h.toTabled.orderMut slot write) (CowBook.orderMut_keeps slot write w),
    .order slot write fun heap table a e ha => ?_⟩
  have howned : Sound ⟨w.setOrders heap table, roots⟩ :=
    h.later (h.toTabled.setOrders (own_held h.orders e))
      ⟨Nat.le_refl _, Nat.le_refl _, own_later e, .refl (Nat.le_refl _) _⟩
  obtain ⟨b, c, hb, hc, hborn⟩ := own_born e
  rw [ha] at hb
  cases hb
  exact orderCount_eq_one howned ha hc hborn

/-- So does the level accessor. -/
theorem level (h : Sound ⟨w, roots⟩) (side t : Nat) (write : PriceLevel → PriceLevel) :
    Sound ⟨last (CowBook.levelMut side t write) w, roots⟩ ∧
      CowBook.Touch roots w (last (CowBook.levelMut side t write) w) := by
  refine ⟨h.later (h.toTabled.levelMut side t write) (CowBook.levelMut_keeps side t write w),
    .level side t write fun heap table a e ha => ?_⟩
  have howned : Sound ⟨w.setLevels side heap table, roots⟩ :=
    h.later (h.toTabled.setLevels e (own_held (h.lane side) e) rfl)
      (CowBook.setLevels_later (own_later e))
  obtain ⟨b, c, hb, hc, hborn⟩ := own_born e
  rw [ha] at hb
  cases hb
  refine levelCount_eq_one howned (by rw [CowBook.setLevels_lane]; exact ha)
    (by rw [CowBook.setLevels_mem]; exact hc) ?_
  rw [CowBook.setLevels_gen]
  exact hborn

theorem capture (h : Sound ⟨w, roots⟩) (hgen : w.gen + 1 < 18446744073709551616) :
    Sound ⟨last CowBook.capture w, roots ++ [w.root]⟩ := by
  have hbump : u64 ((w.gen : Int) + 1) = w.gen + 1 := by unfold u64; omega
  have hlast : last CowBook.capture w = { w with gen := w.gen + 1 } := by rw [← hbump]; rfl
  have hold : ∀ n, n ≤ w.gen → n < w.gen + 1 := fun n => Nat.lt_succ_of_le
  rw [hlast]
  refine ⟨⟨h.orders, h.bids, h.asks, h.apart⟩, ⟨fun a c e => ?_, fun a c e => ?_⟩, fun r hr => ?_⟩
  · exact Nat.le_succ_of_le (h.aged.1 a c e)
  · exact Nat.le_succ_of_le (h.aged.2 a c e)
  · obtain hr | hr := List.mem_append.mp hr
    · obtain ⟨ho, hb, ha⟩ := h.roots r hr
      have hlt : ∀ n, n < w.gen → n < w.gen + 1 := fun n => Nat.lt_succ_of_lt
      exact ⟨ho.mono hlt, hb.mono hlt, ha.mono hlt⟩
    · cases List.mem_singleton.mp hr
      exact ⟨(h.orders.born h.aged.1).mono hold, (h.bids.born h.aged.2).mono hold,
        (h.asks.born h.aged.2).mono hold⟩

end Shared.Sound

namespace CowBook

/-- Whatever is sound stays so, and is reached by writes to chunks that are not shared. -/
def Safely (roots : List Root) (w w' : CowBook) : Prop :=
  Shared.Sound ⟨w, roots⟩ → Shared.Sound ⟨w', roots⟩ ∧ Touches roots w w'

instance : Std.Refl (Safely roots) := ⟨fun _ h => ⟨h, .refl⟩⟩

instance : IsTrans CowBook (Safely roots) := ⟨fun _ _ _ h h' hs =>
  ⟨(h' (h hs).1).1, (h hs).2.trans (h' (h hs).1).2⟩⟩

theorem safely_cellwise (roots : List Root) : Cellwise (Safely roots) where
  same h hs := ⟨hs.later (hs.toTabled.same h) (.same h.gen h.mem), .single (.scalars h)⟩
  order slot write _ hs := ⟨(hs.order slot write).1, .single (hs.order slot write).2⟩
  level side t write _ hs := ⟨(hs.level side t write).1, .single (hs.level side t write).2⟩

theorem new_sound {cfg : SmrConfig} (e : new cfg = .ok w) : Shared.Sound ⟨w, []⟩ := by
  have hchunk : 1 ≤ cfg.chunk := by
    refine Nat.pos_of_ne_zero fun hzero => ?_
    rw [new, if_pos hzero] at e
    cases e
  obtain ⟨w', e', h⟩ := new_mirrors hchunk
  rw [e] at e'
  cases e'
  refine ⟨⟨h.orders, h.bids, h.asks, h.apart⟩, (new_aged e).2, ?_⟩
  intro root hroot
  cases hroot

end CowBook

namespace Decoder

open Bytes

variable {σ α : Type} {R : σ → σ → Prop} {S : Sink σ}

theorem lift_along {x : Run σ α} (h : Along R x) : Along R (lift x) := by
  intro s
  have hs := h s
  have e : last (lift x) s = last x s := by
    unfold last lift
    cases x s <;> rfl
  rw [e]
  exact hs

variable [Std.Refl R]

theorem get_along (buf : List UInt8) (index k : Nat) :
    Along R (get buf index k : Restoring σ (List UInt8)) := Along.ite (Along.pure _) (Along.throw _)

variable [IsTrans σ R]

/-- A read of a field. -/
theorem field_along (buf : List UInt8) (index k : Nat) (f : List UInt8 → α) :
    Along R (do return f (← get buf index k) : Restoring σ α) :=
  (get_along buf index k).bind fun _ => Along.pure _

theorem getLevel_along (buf : List UInt8) (offset : Nat) :
    Along R (getLevel buf offset : Restoring σ LevelRec) :=
  (field_along buf _ 1 unle).bind fun _ => (field_along buf _ 4 unle).bind fun _ =>
    (field_along buf _ 4 unle).bind fun _ => (field_along buf _ 4 unle).bind fun _ =>
      (field_along buf _ 8 fun bs => i64 (unle bs)).bind fun _ =>
        (field_along buf _ 4 unle).bind fun _ => Along.pure _

theorem getOrder_along (buf : List UInt8) (offset : Nat) :
    Along R (getOrder buf offset : Restoring σ OrderRec) :=
  have hi64 := fun index => @field_along σ Int R _ _ buf index 8 fun bs => i64 (unle bs)
  (field_along buf _ 4 unle).bind fun _ => (hi64 _).bind fun _ => (hi64 _).bind fun _ =>
    (hi64 _).bind fun _ => (hi64 _).bind fun _ => (field_along buf _ 4 unle).bind fun _ =>
      (field_along buf _ 4 unle).bind fun _ => (field_along buf _ 1 unle).bind fun _ => Along.pure _

theorem groupWrap_along (buf : List UInt8) (offset : Nat) :
    Along R (groupWrap buf offset : Restoring σ Group) :=
  (field_along buf _ 2 unle).bind fun _ => (field_along buf _ 2 unle).bind fun _ => Along.pure _

theorem readLevels_along (hlevel : ∀ side t l, Along R (S.putLevel side t l)) (buf : List UInt8)
    (n : Nat) (g : Group) : Along R (readLevels S buf n g) := by
  induction n generalizing g with
  | zero => exact Along.pure _
  | succ n ih =>
    unfold readLevels
    split
    · exact Along.throw _
    · exact (getLevel_along buf _).bind fun _ => (lift_along (hlevel _ _ _)).bind fun _ => ih _

theorem readOrders_along (horder : ∀ slot o, Along R (S.putOrder slot o)) (buf : List UInt8)
    (n : Nat) (g : Group) : Along R (readOrders S buf n g) := by
  induction n generalizing g with
  | zero => exact Along.pure _
  | succ n ih =>
    unfold readOrders
    split
    · exact Along.throw _
    · exact (getOrder_along buf _).bind fun _ => (lift_along (horder _ _)).bind fun _ => ih _

/-- What the sink keeps, the decoder keeps. -/
theorem message_along (hhead : ∀ p t n h b a s, R s (S.setHead p t n h b a s))
    (hfree : ∀ n s, R s (S.setFreeHead n s))
    (hlevel : ∀ side t l, Along R (S.putLevel side t l))
    (horder : ∀ slot o, Along R (S.putOrder slot o)) (buf : List UInt8) (cap : Nat) :
    Along R (message S buf cap) := by
  have hi64 := fun index => @field_along σ Int R _ _ buf index 8 fun bs => i64 (unle bs)
  have hi32 := fun index => @field_along σ Int R _ _ buf index 4 fun bs => i32 (unle bs)
  have hu32 := fun index => @field_along σ Nat R _ _ buf index 4 unle
  have hgroups : ∀ limit, Along R (groups S buf limit) := fun limit =>
    (groupWrap_along buf limit).bind fun g => (readLevels_along hlevel buf _ g).bind fun g =>
      (groupWrap_along buf _).bind fun g => (readOrders_along horder buf _ g).bind fun _ =>
        Along.pure _
  have hrest : ∀ freeHead limit, Along R (do
      modify (S.setFreeHead freeHead)
      groups S buf limit : Restoring σ Unit) := fun freeHead limit =>
    Along.bind (fun s => hfree freeHead s) fun _ => hgroups limit
  refine (field_along buf _ 2 unle).bind fun _ => Along.ite (Along.throw _) ?_
  refine (field_along buf _ 2 unle).bind fun acting => (hi64 _).bind fun p => (hi64 _).bind fun t =>
    (hu32 _).bind fun n => (hu32 _).bind fun h => (hi32 _).bind fun b => (hi32 _).bind fun a => ?_
  refine Along.bind (fun s => hhead p t n h b a s) fun _ => (hu32 _).bind fun _ =>
    Along.ite (Along.throw _) ((hu32 _).bind fun freeHead => hrest freeHead _)

end Decoder

namespace CowBook

/-- Restoring goes through the accessors too. -/
theorem Cellwise.restoreCow {R : CowBook → CowBook → Prop} [Std.Refl R] [IsTrans CowBook R]
    (hcell : Cellwise R) {crc32c : List UInt8 → UInt32} {image : List UInt8} {cfg : SmrConfig}
    (e : restoreCow crc32c image cfg = .ok w) : ∃ w₀, new cfg = .ok w₀ ∧ R w₀ w := by
  rw [HiPerf.restoreCow] at e
  cases hbuf : Decoder.checked crc32c image with
  | error f =>
    rw [hbuf] at e
    cases e
  | ok buf =>
    rw [hbuf] at e
    cases hnew : new cfg with
    | error p =>
      simp only [hnew] at e
      cases e
    | ok w₀ =>
      simp only [hnew] at e
      have hrun : Along R (Decoder.message sink buf cfg.cap) := by
        refine Decoder.message_along (fun p t n h b a s => ?_) (fun n s => ?_) (fun side t l => ?_)
          (fun slot o => ?_) buf cfg.cap
        · exact hcell.same ⟨rfl, rfl, rfl, rfl, rfl, rfl⟩
        · exact hcell.same ⟨rfl, rfl, rfl, rfl, rfl, rfl⟩
        · exact (hcell.level side t _).bind fun _ => Along.pure _
        · refine (hcell.order slot _).bind fun _ => Along.ite (hcell.scalars ?_) (Along.pure _)
          exact fun _ => ⟨rfl, rfl, rfl, rfl, rfl, rfl⟩
      have hend := hrun w₀
      change Decoder.into sink buf cfg.cap w₀ = .ok w at e
      unfold Decoder.into at e
      cases hm : Decoder.message sink buf cfg.cap w₀ with
      | error f w₁ =>
        rw [hm] at e
        cases e
      | ok a w₁ =>
        rw [hm] at e
        cases e
        rw [last_ok hm] at hend
        exact ⟨w₀, rfl, hend⟩

/-- A book begins in the first generation. -/
theorem Starts.sound (h : Starts w) : Shared.Sound ⟨w, []⟩ ∧ w.gen = 1 := by
  obtain ⟨cfg, e⟩ | ⟨crc32c, image, cfg, e⟩ := h
  · exact ⟨new_sound e, (new_aged e).1⟩
  · obtain ⟨w₀, e₀, hsafely⟩ := (safely_cellwise []).restoreCow e
    obtain ⟨w₁, e₁, hlater⟩ := later_cellwise.restoreCow e
    rw [e₀] at e₁
    cases e₁
    have hgen := (new_aged e₀).1
    refine ⟨(hsafely (new_sound e₀)).1, ?_⟩
    have := hlater.gen_le
    have := hlater.le_gen
    omega

end CowBook

namespace Shared

theorem Sound.act {s : Shared} (h : s.Sound) (a : Action)
    (hgen : s.book.gen + Action.captures [a] < 18446744073709551616) :
    (s.act a).Sound ∧ (s.act a).book.gen ≤ s.book.gen + Action.captures [a] := by
  cases a with
  | op op =>
    have hkeeps := CowBook.apply_keeps op s.book
    exact ⟨((CowBook.safely_cellwise s.roots).apply op s.book h).1, hkeeps.le_gen⟩
  | capture => exact ⟨h.capture hgen, (CowBook.capture_later hgen).le_gen⟩
  | drop i =>
    exact ⟨{ h with roots := fun r hr => h.roots r (List.mem_of_mem_eraseIdx hr) }, Nat.le_refl _⟩

theorem Sound.acts {s : Shared} (h : s.Sound) {as : List Action}
    (hgen : s.book.gen + Action.captures as < 18446744073709551616) : (s.acts as).Sound := by
  induction as generalizing s with
  | nil => exact h
  | cons a as ih =>
    have hsplit : Action.captures (a :: as) = Action.captures [a] + Action.captures as := by
      cases a <;> simp only [Action.captures] <;> omega
    obtain ⟨h', hle⟩ := h.act a (by omega)
    exact ih h' (by omega)

theorem Sound.epochInvariant {s : Shared} (h : s.Sound) : s.EpochInvariant := by
  refine ⟨h.roots, ⟨h.orders.born h.aged.1, fun side => (h.lane side).born h.aged.2⟩,
    fun ci a ha hborn => ?_, fun side ci a ha hborn => ?_⟩
  · obtain ⟨c, hc, hb⟩ := Option.map_eq_some_iff.mp hborn
    exact h.orderCount_eq_one ha hc (Nat.le_of_eq hb.symm)
  · obtain ⟨c, hc, hb⟩ := Option.map_eq_some_iff.mp hborn
    exact h.levelCount_eq_one ha hc (Nat.le_of_eq hb.symm)

/-- While the generation has not wrapped, the epochs tell the references, and every
call writes to chunks that nobody else refers to; so does the restoring of a book. -/
theorem writes_unshared {w₀ : CowBook} (hstart : w₀.Starts) {as : List Action}
    (hgen : Action.captures as + 1 < 18446744073709551616) :
    (acts ⟨w₀, []⟩ as).EpochInvariant ∧
      (∀ op, CowBook.Touches (acts ⟨w₀, []⟩ as).roots (acts ⟨w₀, []⟩ as).book
        (last (CowBook.apply op) (acts ⟨w₀, []⟩ as).book)) ∧
      ∀ crc32c image cfg, restoreCow crc32c image cfg = .ok w₀ →
        ∃ w, CowBook.new cfg = .ok w ∧ CowBook.Touches [] w w₀ := by
  obtain ⟨hsound, hone⟩ := hstart.sound
  have h : (acts ⟨w₀, []⟩ as).Sound := hsound.acts (by change w₀.gen + _ < _; omega)
  refine ⟨h.epochInvariant, fun op => ?_, fun crc32c image cfg e => ?_⟩
  · exact ((CowBook.safely_cellwise _).apply op _ h).2
  · obtain ⟨w, e₀, hsafely⟩ := (CowBook.safely_cellwise []).restoreCow e
    exact ⟨w, e₀, (hsafely (CowBook.new_sound e₀)).2⟩

theorem writes_unshared_two : ∃ w₀, CowBook.Starts w₀ ∧
    (acts ⟨w₀, []⟩ [.op (.insert 1 0 1 0), .capture, .op (.cancel 1), .drop 0]).EpochInvariant := by
  obtain ⟨w₀, e₀, -⟩ := CowBook.new_mirrors (show 1 ≤ CowBook.oneSlot.chunk by decide)
  have hstart : w₀.Starts := .inl ⟨_, e₀⟩
  exact ⟨w₀, hstart, (writes_unshared hstart (by decide)).1⟩

/-- `n` captures in a row, the roots all alive. -/
@[irreducible] def captureAll (n : Nat) : List Action := List.replicate n .capture

theorem acts_captureAll {w : CowBook} (hg : w.gen < 18446744073709551616) (roots : List Root) (n : Nat) :
    acts ⟨w, roots⟩ (captureAll n) =
      ⟨{ w with gen := u64 (w.gen + n) }, roots ++ List.replicate n w.root⟩ := by
  unfold captureAll
  induction n generalizing w roots with
  | zero =>
    have e : u64 ((w.gen : Int) + (0 : Nat)) = w.gen := by unfold u64; omega
    rw [e, List.replicate_zero, List.replicate_zero, List.append_nil]
    rfl
  | succ n ih =>
    have e : u64 ((u64 ((w.gen : Int) + 1) : Nat) + (n : Nat)) = u64 ((w.gen : Int) + (n + 1 : Nat)) := by
      unfold u64; omega
    have h := @ih { w with gen := u64 (w.gen + 1) } (u64_lt (w.gen + 1)) (roots ++ [w.root])
    rw [List.append_assoc, e] at h
    exact h

/-- After 2^64 - 1 captures the generation is zero, and the chunks that the roots
share with the book are of a later one. -/
theorem epoch_wrapped : ∃ w₀, CowBook.new CowBook.oneSlot = .ok w₀ ∧
    ¬ (acts ⟨w₀, []⟩ (captureAll 18446744073709551615)).EpochInvariant := by
  obtain ⟨w₀, e₀, h₀⟩ := CowBook.new_mirrors (show 1 ≤ CowBook.oneSlot.chunk by decide)
  have hgen := (CowBook.new_aged e₀).1
  have hwrap : u64 ((w₀.gen : Int) + (18446744073709551615 : Nat)) = 0 := by rw [hgen]; decide
  refine ⟨w₀, e₀, fun h => ?_⟩
  rw [acts_captureAll (by rw [hgen]; decide), hwrap] at h
  have hroot := h.roots w₀.root (List.mem_append_right _ (List.mem_replicate.mpr ⟨by decide, rfl⟩))
  have hfirst : w₀.orderChunks[0]? ≠ none := by
    intro e
    have hget := h₀.order 0
    have hzero : (Book.new CowBook.oneSlot).pool[0]? = some Order.zero := rfl
    rw [CowBook.order?, Epoch.get, Nat.zero_div, e, hzero] at hget
    cases hget
  obtain ⟨a, ha⟩ := Option.ne_none_iff_exists'.mp hfirst
  obtain ⟨c, -, hlt⟩ := hroot.1 0 a ha
  exact absurd hlt (Nat.not_lt_zero _)

end Shared

end HiPerf

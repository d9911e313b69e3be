import HiPerf.Go.Image

/-!
What `Restore` makes of an image the encoder wrote: a book with the same memory, which goes
on as the first one would have.
-/

namespace HiPerf.Go

open Machine Exec Bytes

theorem Holds.longer {buf : List UInt8} {i : Nat} {fs : List Field} (h : Bytes.Holds buf i fs)
    (rest : List UInt8) : Bytes.Holds (buf ++ rest) i fs := by
  obtain ⟨pre, post, rfl, hlen⟩ := h
  exact ⟨pre, post ++ rest, (List.append_assoc _ _ _), hlen⟩

theorem lift_runs {σ τ α : Type} {I : σ → τ → Prop} {x : Run σ α} {t t' : τ} {a : α}
    (h : Runs I x t a t') : Runs I (Decoder.lift x) t a t' := by
  intro s hs
  obtain ⟨s', e, hs'⟩ := h s hs
  refine ⟨s', ?_, hs'⟩
  rw [Decoder.lift, e]

namespace Snapshot

open Decoder

variable {data : List UInt8} {sbeLen position : Nat} {fs : List Field}

theorem check_ok {text : String} (h : position ≤ sbeLen) :
    check position sbeLen text = pure () := if_neg (Nat.not_lt_of_le h)

theorem wrapGroup_ok {blockLength count : Nat}
    (h : Bytes.Holds data position (groupFields blockLength count ++ fs))
    (hblock : blockLength < 65536) (hcount : count < 65536) (hroom : position + 4 ≤ sbeLen) :
    wrapGroup data sbeLen position = pure (blockLength, count, position + 4) := by
  have htail : Bytes.Holds data (position + 2) _ := h.tail
  funext b
  rw [wrapGroup, check_ok hroom, pure_bind, bind_ok (getU16_ok h hblock b),
    bind_ok (getU16_ok htail hcount b)]

/-- The loop over the levels stores them one after the other. -/
theorem readLevels_ok (rs : List LevelRec)
    (h : Bytes.Holds data position ((rs.map levelFields).flatten ++ fs))
    (hrs : ∀ r ∈ rs, r.1 ≤ 1 ∧ r.2.1 < 4294967296 ∧ r.2.2.Plain)
    (hroom : position + LEVELS_BLOCK * rs.length ≤ sbeLen) :
    readLevels data sbeLen LEVELS_BLOCK rs.length position = (do
      runAll (fun r => lift (Book.setLevel r.1 r.2.1 r.2.2)) rs
      pure (position + LEVELS_BLOCK * rs.length)) := by
  induction rs generalizing position with
  | nil => rfl
  | cons r rs ih =>
    rw [List.map_cons, List.flatten_cons, List.append_assoc] at h
    rw [List.length_cons, Nat.mul_succ] at hroom
    obtain ⟨hside, ht, hl⟩ := hrs r List.mem_cons_self
    have hrest := h.append_right
    rw [levelFields_width] at hrest
    have htail := ih hrest (fun r hr => hrs r (List.mem_cons_of_mem _ hr)) (by omega)
    have hend : position + LEVELS_BLOCK + LEVELS_BLOCK * rs.length =
        position + LEVELS_BLOCK * (r :: rs).length := by
      rw [List.length_cons, Nat.mul_succ]
      omega
    funext b
    rw [List.length_cons, readLevels, check_ok (by omega), pure_bind,
      bind_ok (getLevel_ok h hside ht hl b)]
    dsimp only
    rw [htail, hend, runAll, bind_assoc, List.length_cons]

/-- The loop over the orders stores them one after the other. -/
theorem readOrders_ok (rs : List OrderRec)
    (h : Bytes.Holds data position ((rs.map orderFields).flatten ++ fs))
    (hrs : ∀ r ∈ rs, r.1 < 4294967296 ∧ r.2.Plain)
    (hroom : position + ORDERS_BLOCK * rs.length ≤ sbeLen) :
    readOrders data sbeLen ORDERS_BLOCK rs.length position = (do
      runAll (fun r => lift (Book.setOrder r.1 r.2)) rs
      pure (position + ORDERS_BLOCK * rs.length)) := by
  induction rs generalizing position with
  | nil => rfl
  | cons r rs ih =>
    rw [List.map_cons, List.flatten_cons, List.append_assoc] at h
    rw [List.length_cons, Nat.mul_succ] at hroom
    obtain ⟨hs, ho⟩ := hrs r List.mem_cons_self
    have hrest := h.append_right
    rw [orderFields_width] at hrest
    have htail := ih hrest (fun r hr => hrs r (List.mem_cons_of_mem _ hr)) (by omega)
    have hend : position + ORDERS_BLOCK + ORDERS_BLOCK * rs.length =
        position + ORDERS_BLOCK * (r :: rs).length := by
      rw [List.length_cons, Nat.mul_succ]
      omega
    funext b
    rw [List.length_cons, readOrders, check_ok (by omega), pure_bind,
      bind_ok (getOrder_ok h hs ho b)]
    dsimp only
    rw [htail, hend, runAll, bind_assoc, List.length_cons]

/-- The scalars of an image, in a book. -/
def setScalars (s : Scalars) (b : Book) : Book :=
  { b with
    priceMin := s.priceMin
    tick := s.tick
    nLevels := s.nLevels
    hwm := s.hwm
    bestBid := s.bestBid
    bestAsk := s.bestAsk
    freeHead := s.freeHead }

/-- The groups of an image, into a book, and its id map. -/
def putRecords (m : Image) : Restoring Book Unit := do
  runAll (fun r => lift (Book.setLevel r.1 r.2.1 r.2.2)) m.levels
  runAll (fun r => lift (Book.setOrder r.1 r.2)) m.orders
  lift Book.rebuildIDs

/-- The message of an image, with anything behind it. -/
theorem message_image {m : Image} (hm : m.Plain) (rest : List UInt8) (cap : Nat) (b : Book) :
    (m.scalars.capacity = cap → message (bytes m.fields ++ rest) (bytes m.fields).length 48 cap b =
      putRecords m (setScalars m.scalars b)) ∧
    (m.scalars.capacity ≠ cap → ∃ text b', message (bytes m.fields ++ rest)
      (bytes m.fields).length 48 cap b = .error (.err text) b') := by
  have hs := hm.scalars
  have h₀ := Holds.longer (image_holds m) rest
  have h₂ : Bytes.Holds _ 2 _ := h₀.tail
  have h₄ : Bytes.Holds _ 4 _ := h₂.tail
  have h₆ : Bytes.Holds _ 6 _ := h₄.tail
  have h₈ : Bytes.Holds _ 8 _ := h₆.tail
  have h₁₆ : Bytes.Holds _ (8 + 8) _ := h₈.tail
  have h₂₄ : Bytes.Holds _ (8 + 16) _ := h₁₆.tail
  have h₂₈ : Bytes.Holds _ (8 + 20) _ := h₂₄.tail
  have h₃₂ : Bytes.Holds _ (8 + 24) _ := h₂₈.tail
  have h₃₆ : Bytes.Holds _ (8 + 28) _ := h₃₂.tail
  have h₄₀ : Bytes.Holds _ (8 + 32) _ := h₃₆.tail
  have h₄₄ : Bytes.Holds _ (8 + 36) _ := h₄₀.tail
  have hlevels : Bytes.Holds _ 48 (groupFields LEVELS_BLOCK m.levelCount ++ _) := h₄₄.tail
  have hblocks : Bytes.Holds _ 52 _ := hlevels.append_right
  have horders := hblocks.append_right
  have hblocks' := horders.append_right
  have hwidth : width (m.levels.map levelFields).flatten = LEVELS_BLOCK * m.levels.length := by
    rw [width_flatten LEVELS_BLOCK, List.length_map]
    intro b hb
    obtain ⟨r, -, rfl⟩ := List.mem_map.mp hb
    exact levelFields_width r
  have hdims : ∀ n c, width (groupFields n c) = 4 := fun _ _ => rfl
  rw [hwidth] at horders hblocks'
  rw [hdims] at hblocks'
  have hfree : m.scalars.freeHead < 4294967296 := Nat.lt_of_le_of_lt hs.freeHead (by decide)
  have hsize : (bytes m.fields).length =
      56 + LEVELS_BLOCK * m.levels.length + ORDERS_BLOCK * m.orders.length := by
    rw [bytes_length, m.width_fields]
  have hgroup := @wrapGroup_ok _ (bytes m.fields).length _ _ _ _ hlevels (by decide)
    hm.levelCount_lt (by omega)
  have hread := @readLevels_ok _ (bytes m.fields).length _ _ m.levels hblocks hm.levels (by omega)
  have hgroup' := @wrapGroup_ok _ (bytes m.fields).length _ _ _ _ horders (by decide)
    hm.orderCount_lt (by omega)
  have hread' := @readOrders_ok _ (bytes m.fields).length _ _ m.orders hblocks' hm.orders (by omega)
  rw [hm.levelCount] at hread hgroup' hread'
  rw [hm.orderCount] at hread'
  unfold message
  rw [bind_ok (getI64_ok h₈ hs.priceMin b), bind_ok (getI64_ok h₁₆ hs.tick b),
    bind_ok (getU32_ok h₂₄ hs.nLevels b), bind_ok (getU32_ok h₃₂ hs.hwm b),
    bind_ok (getI32_ok h₃₆ hs.bestBid b), bind_ok (getI32_ok h₄₀ hs.bestAsk b), modify_bind,
    bind_ok (getU32_ok h₂₈ hs.capacity _), ite_run]
  constructor
  · intro hcap
    rw [if_neg (not_not.mpr hcap)]
    dsimp only
    rw [bind_ok (getU32_ok h₄₄ hfree _), modify_bind]
    simp only [hgroup, pure_bind, hread, bind_assoc, hgroup', hread', putRecords]
    rfl
  · intro hcap
    rw [if_pos hcap]
    exact ⟨_, _, rfl⟩

/-- The levels of an image over those of a book. -/
def putLvls (lvl : Lane → Nat → PriceLevel) (rs : List LevelRec) : Lane → Nat → PriceLevel :=
  rs.foldl (fun lvl r y u => if y = laneOf r.1 ∧ u = r.2.1 then r.2.2 else lvl y u) lvl

theorem putLvls_eq {lvl' lvl : Lane → Nat → PriceLevel} {x : Lane} {t : Nat} (rs : List LevelRec)
    (hrs : ∀ r ∈ rs, r.2.2 = lvl' (laneOf r.1) r.2.1)
    (h : lvl x t = lvl' x t ∨ ∃ r ∈ rs, laneOf r.1 = x ∧ r.2.1 = t) :
    putLvls lvl rs x t = lvl' x t := by
  induction rs generalizing lvl with
  | nil =>
    cases h with
    | inl h => exact h
    | inr h => exact absurd h (by simp)
  | cons r rs ih =>
    have hrest : ∀ r ∈ rs, r.2.2 = lvl' (laneOf r.1) r.2.1 :=
      fun r hr => hrs r (List.mem_cons_of_mem _ hr)
    rw [putLvls, List.foldl_cons]
    apply ih hrest
    by_cases hr : x = laneOf r.1 ∧ t = r.2.1
    · left
      rw [if_pos hr, hr.1, hr.2]
      exact hrs r List.mem_cons_self
    · rw [if_neg hr]
      cases h with
      | inl h => exact .inl h
      | inr h =>
        obtain ⟨r', hmem, hx, ht⟩ := h
        cases hmem with
        | head => exact absurd ⟨hx.symm, ht.symm⟩ hr
        | tail _ hmem => exact .inr ⟨r', hmem, hx, ht⟩

section

variable {cap size n : Nat} {f : Flat} {L : Ledger} {q : Lane → Nat → List Nat}

theorem putLevels_runs (rs : List LevelRec) (hrs : ∀ r ∈ rs, r.2.1 < f.grid.nLevels) :
    Runs (Book.Shows cap size) (runAll (fun r => lift (Book.setLevel r.1 r.2.1 r.2.2)) rs) (n, f) ()
      (n, { f with lvl := putLvls f.lvl rs }) := by
  induction rs generalizing f with
  | nil => exact Runs.pure ()
  | cons r rs ih =>
    have hset := @Book.setLevel_runs cap size n r.2.1 f r.1 (hrs r List.mem_cons_self) r.2.2
    have hrest := @ih (f.setLvl (laneOf r.1) r.2.1 r.2.2)
      fun r hr => hrs r (List.mem_cons_of_mem _ hr)
    exact (lift_runs hset).bind hrest

/-- The slots of the memory, one behind the other. -/
theorem putOrders_runs {s k : Nat} (hcap : s + k ≤ cap) :
    Runs (Book.Shows cap size)
      (runAll (fun r => lift (Book.setOrder r.1 r.2)) ((List.range' s k).map fun s => (s, f.ord s)))
      (s, f) () (s + k, f) := by
  induction k generalizing s with
  | zero => exact Runs.pure ()
  | succ k ih =>
    have hset := @Book.setOrder_runs cap size s s f (Nat.le_refl _) (by omega) (f.ord s)
    have hself : f.setOrd s (f.ord s) = f := by
      have hord : (fun y => if y = s then f.ord s else f.ord y) = f.ord := by
        funext y
        split
        · rename_i hy
          rw [hy]
        · rfl
      rw [Flat.setOrd, hord]
    have hrest := @ih (s + 1) (by omega)
    rw [hself, Nat.max_eq_right (Nat.le_succ s)] at hset
    rw [Nat.add_assoc, Nat.add_comm 1] at hrest
    exact (lift_runs hset).bind hrest

/-- The levels of the image of a memory are all that a blank ladder lacks. -/
theorem putLvls_levelRecs (h : Rep f L q) (x : Lane) (t : Nat) :
    putLvls (fun _ _ => PriceLevel.EMPTY) f.levelRecs x t = f.lvl x t := by
  apply putLvls_eq
  · intro r hr
    exact (mem_levelRecs hr).2.2.1
  · by_cases hnil : (f.lvl x t).head = NIL
    · exact .inl (h.level_eq_empty_of_head hnil).symm
    · right
      have ht : t < f.grid.nLevels := by
        by_contra hle
        rw [h.levels_beyond x t (Nat.le_of_not_lt hle)] at hnil
        exact hnil rfl
      cases x with
      | bid => exact ⟨_, levelRecs_mem (show 0 ≤ 1 by decide) ht hnil, rfl, rfl⟩
      | ask => exact ⟨_, levelRecs_mem (show 1 ≤ 1 by decide) ht hnil, rfl, rfl⟩

/-- The records of the image of a memory turn a new book with its scalars into one that shows
the memory. -/
theorem putRecords_runs {m : IdMap} {capacity : Nat} (h : f.Holds cap L) (hsize : cap < size)
    (hnew : newIDMap cap = some m) (hm : m.Holds size []) :
    Runs (Book.Shows cap size) (putRecords (f.image capacity (List.range f.hwm)))
      (0, { f with lvl := fun _ _ => PriceLevel.EMPTY, ids := HiPerf.IdMap.empty }) () (f.hwm, f) := by
  obtain ⟨q, fl, hrep, hfl, hcap⟩ := h
  have hlevels := @putLevels_runs cap size 0
    { f with lvl := fun _ _ => PriceLevel.EMPTY, ids := HiPerf.IdMap.empty } f.levelRecs
    fun r hr => (mem_levelRecs hr).2.1
  have hlvl : putLvls (fun _ _ => PriceLevel.EMPTY) f.levelRecs = f.lvl := by
    funext x t
    exact putLvls_levelRecs hrep x t
  dsimp only at hlevels
  rw [hlvl] at hlevels
  have horders := @putOrders_runs cap size (f.setIds HiPerf.IdMap.empty) 0 f.hwm (by omega)
  rw [Nat.zero_add] at horders
  have hids := lift_runs (Book.rebuildIDs_runs ⟨q, fl, hrep, hfl, hcap⟩ hsize hnew hm
    HiPerf.IdMap.empty)
  have hrecs : (f.image capacity (List.range f.hwm)).orders =
      (List.range' 0 f.hwm).map fun s => (s, (f.setIds HiPerf.IdMap.empty).ord s) := by
    rw [← List.range_eq_range']
    rfl
  unfold putRecords
  rw [hrecs]
  exact hlevels.bind (horders.bind hids)

theorem levelRecs_length_le (h : Rep f L q) {fl : List Nat} (hfl : FreeList f L fl) :
    f.levelRecs.length ≤ f.hwm := by
  have hb := @Flat.book_shows f f.hwm h.levels_beyond hfl.fresh
  have hle := HiPerf.Book.levelRecs_length_le hb h
  rwa [hb.levelRecs_eq (Flat.book_narrow f f.hwm)] at hle

/-- The header of a sealed image is accepted. -/
theorem decodeHeader_sealed (crc32c : List UInt8 → UInt32) (m : Image) :
    decodeHeader crc32c (Encoder.sealed crc32c m) = .ok 48 := by
  have hlen := Encoder.sealed_length crc32c m
  have hwidth := m.width_fields
  have hbody : (Encoder.sealed crc32c m).take (width m.fields) = bytes m.fields := by
    rw [← bytes_length]
    exact List.take_left
  have htrailer : (Encoder.sealed crc32c m).drop (width m.fields) =
      le 4 (crc32c (bytes m.fields)).toNat := by
    rw [← bytes_length]
    exact List.drop_left
  have h₀ : Bytes.Holds (Encoder.sealed crc32c m) 0 _ := Holds.longer (image_holds m) _
  have h₂ : Bytes.Holds _ 2 _ := h₀.tail
  have h₄ : Bytes.Holds _ 4 _ := h₂.tail
  have h₆ : Bytes.Holds _ 6 _ := h₄.tail
  have hversion : unle (Bytes.get (Encoder.sealed crc32c m) 6 2) = 2 := by
    rw [h₆.get.2]
    rfl
  have hblock : unle (Bytes.get (Encoder.sealed crc32c m) 0 2) = 40 := by
    rw [h₀.get.2]
    rfl
  have hcrc : (crc32c (bytes m.fields)).toNat < 256 ^ 4 := (crc32c (bytes m.fields)).toNat_lt
  rw [decodeHeader]
  simp only [hlen, Nat.add_sub_cancel, hbody, htrailer, unle_le_of_lt hcrc, hversion, hblock]
  rw [if_neg (by omega), if_neg (by simp), if_neg (by omega), if_neg (by decide), if_neg (by omega)]
  rfl

/-- The image of a memory is restored under its own configuration, and under one of another
capacity it is not. -/
theorem restore_sealed {cfg : SmrConfig} (crc32c : List UInt8 → UInt32) (h : f.Holds cfg.cap L)
    (hlevels : cfg.levels = f.grid.nLevels) (hpos : 1 ≤ cfg.cap)
    (hcap : cfg.cap ≤ 2305843009213693952) (hhwm : f.hwm ≤ 65535) :
    (u32 cfg.cap = cfg.cap → ∃ g size, cfg.cap < size ∧ g.Shows cfg.cap size (f.hwm, f) ∧
      restore crc32c (Encoder.sealed crc32c (f.image (u32 cfg.cap) (List.range f.hwm))) cfg = .ok g) ∧
    (u32 cfg.cap ≠ cfg.cap → ∃ text,
      restore crc32c (Encoder.sealed crc32c (f.image (u32 cfg.cap) (List.range f.hwm))) cfg =
        .error (.err text)) := by
  obtain ⟨g₀, m, size, hnew, hmap, hm, hroom, hg₀⟩ := @Book.newBook_shows cfg hpos hcap
  obtain ⟨q, fl, hrep, hfl, hle⟩ := h
  have hplain : (f.image (u32 cfg.cap) (List.range f.hwm)).Plain := by
    apply Flat.image_plain hrep (u32_lt _)
    · exact hfl.head_le hrep.hwm_le
    · intro s hs
      have hlt := List.mem_range.mp hs
      omega
    · rw [List.length_range]
      omega
    · have hlen := levelRecs_length_le hrep hfl
      omega
  have hstart : (setScalars (f.image (u32 cfg.cap) (List.range f.hwm)).scalars g₀).Shows cfg.cap size
      (0, { f with lvl := fun _ _ => PriceLevel.EMPTY, ids := HiPerf.IdMap.empty }) := by
    have hblank : ∀ x, (HiPerf.Book.new cfg).view.lvl x = fun _ => PriceLevel.EMPTY :=
      fun x => funext fun t => (HiPerf.Book.new_blank cfg).2 x t
    have hbids : Rows g₀.bids cfg.levels fun _ => PriceLevel.EMPTY := hblank .bid ▸ hg₀.bids
    have hasks : Rows g₀.asks cfg.levels fun _ => PriceLevel.EMPTY := hblank .ask ▸ hg₀.asks
    rw [hlevels] at hbids hasks
    exact {
      priceMin := rfl
      tick := rfl
      nLevels := rfl
      pool := hg₀.pool
      order := nofun
      bids := hbids
      asks := hasks
      hwm := rfl
      freeHead := rfl
      bestBid := rfl
      bestAsk := rfl
      ids := hg₀.ids }
  have hmsg := message_image hplain (le 4 (crc32c (bytes (f.image (u32 cfg.cap)
    (List.range f.hwm)).fields)).toNat) cfg.cap g₀
  have hcap' : (f.image (u32 cfg.cap) (List.range f.hwm)).scalars.capacity = u32 cfg.cap := rfl
  rw [hcap'] at hmsg
  rw [restore, decodeHeader_sealed, hnew, Encoder.sealed_length, Nat.add_sub_cancel, ← bytes_length]
  dsimp only [bind, Except.bind]
  constructor
  · intro heq
    obtain ⟨g, e, hg⟩ := putRecords_runs ⟨q, fl, hrep, hfl, hle⟩ hroom hmap hm _ hstart
    refine ⟨g, size, hroom, hg, ?_⟩
    have e' := (hmsg.1 heq).trans e
    rw [Encoder.sealed, e']
    rfl
  · intro hne
    obtain ⟨text, b', e⟩ := hmsg.2 hne
    refine ⟨text, ?_⟩
    rw [Encoder.sealed, e]
    rfl

end

end Snapshot

end HiPerf.Go

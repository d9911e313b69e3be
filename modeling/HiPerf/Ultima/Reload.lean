import HiPerf.Ultima.Image
import HiPerf.Ultima.Restore

/-!
What a bulk load makes of the image of a memory: tables that show it, in which
the next row comes right behind the highest one loaded.
-/

namespace HiPerf

open Machine Tables Exec Bytes Decoder

/-- The fields of an image with `version` in its header. -/
def Image.altered (m : Image) (version : Nat) : List Field :=
  [(2, SBE_BLOCK_LENGTH), (2, SBE_TEMPLATE_ID), (2, SBE_SCHEMA_ID), (2, version)] ++
    (m.scalars.fields ++ (groupFields LEVELS_BLOCK m.levelCount ++
      ((m.levels.map levelFields).flatten ++ (groupFields ORDERS_BLOCK m.orderCount ++
        ((m.orders.map orderFields).flatten ++ [])))))

theorem Image.altered_eq (m : Image) : m.altered SBE_SCHEMA_VERSION = m.fields := by
  simp [altered, fields, prefixFields, headerFields]

/-- An image whose records are those of `f`, its orders those of `slots`. -/
structure Image.Of (m : Image) (f : Flat) (slots : List Nat) : Prop where
  plain : m.Plain
  nLevels : m.scalars.nLevels = f.grid.nLevels
  levels : ∀ r ∈ m.levels, r ∈ f.levelRecs
  orders : m.orders = f.orderRecs slots
  sorted : slots.Pairwise (· < ·)

/-- The levels table that is loaded: the levels of the image, and blank ones. -/
def Flat.loadTable (f : Flat) (keys : List Nat) : List (Nat × LevelRec) :=
  (List.range (2 * f.grid.nLevels)).map fun i =>
    (i + 1, if i ∈ keys then f.levelAt i
      else (i / f.grid.nLevels, i % f.grid.nLevels, PriceLevel.EMPTY))

section

variable {f : Flat}

theorem levelAt_index {r : LevelRec} (hr : r ∈ f.levelRecs) :
    levelIndex f.grid.nLevels r < 2 * f.grid.nLevels ∧ f.levelAt (levelIndex f.grid.nLevels r) = r := by
  obtain ⟨hside, ht, e, -⟩ := mem_levelRecs hr
  obtain ⟨side, t, l⟩ := r
  obtain rfl | rfl : side = 0 ∨ side = 1 := by simp only at hside; omega
  · have hidx : levelIndex f.grid.nLevels (0, t, l) = t := by simp [levelIndex]
    have hlt : t < f.grid.nLevels := ht
    have hlvl : l = f.lvl .bid t := e
    rw [hidx, Flat.levelAt, if_pos hlt, hlvl]
    exact ⟨by omega, rfl⟩
  · have hidx : levelIndex f.grid.nLevels (1, t, l) = f.grid.nLevels + t := by simp [levelIndex]
    have hlt : t < f.grid.nLevels := ht
    have hlvl : l = f.lvl .ask t := e
    rw [hidx, Flat.levelAt, if_neg (by omega), Nat.add_sub_cancel_left, hlvl]
    exact ⟨by omega, rfl⟩

/-- With all occupied levels loaded the table is that of the memory. -/
theorem loadTable_eq {L : Ledger} {q : Lane → Nat → List Nat} (h : Rep f L q) {keys : List Nat}
    (hkeys : ∀ r ∈ f.levelRecs, levelIndex f.grid.nLevels r ∈ keys) :
    f.loadTable keys = f.levelTable := by
  refine List.map_congr_left fun i hi => ?_
  have hlt := List.mem_range.mp hi
  split
  · rfl
  · rename_i hnot
    have hempty : ∀ side t, side ≤ 1 → t < f.grid.nLevels → i = side * f.grid.nLevels + t →
        f.lvl (laneOf side) t = PriceLevel.EMPTY := by
      intro side t hside ht e
      refine h.level_eq_empty_of_head ?_
      by_contra hne
      exact hnot (e ▸ hkeys _ (levelRecs_mem hside ht hne))
    rw [Flat.levelAt]
    by_cases hbid : i < f.grid.nLevels
    · rw [if_pos hbid, Nat.div_eq_of_lt hbid, Nat.mod_eq_of_lt hbid]
      have e : f.lvl .bid i = PriceLevel.EMPTY := hempty 0 i (by omega) hbid (by omega)
      rw [e]
    · have hdiv : i / f.grid.nLevels = 1 := Nat.div_eq_of_lt_le (by omega) (by omega)
      have hmod : i % f.grid.nLevels = i - f.grid.nLevels := by
        rw [Nat.mod_eq_sub_mod (by omega), Nat.mod_eq_of_lt (by omega)]
      have e : f.lvl .ask (i - f.grid.nLevels) = PriceLevel.EMPTY :=
        hempty 1 (i - f.grid.nLevels) (by omega) (by omega) (by omega)
      rw [if_neg hbid, hdiv, hmod, e]

end

namespace Decoder

/-- What is read of an image: every row, in the order of the rows. -/
theorem putRows_ok {f : Flat} {m : Image} {slots : List Nat} (hm : m.Of f slots) :
    putRows f.grid.nLevels m ⟨emptyRows f.grid.nLevels, [], IdMap.empty⟩ = .ok ()
      ⟨f.loadTable (m.levels.map (levelIndex f.grid.nLevels)), f.orderTable slots,
        slots.foldl (fun ids s => ids.insert (f.ord s).orderId (rowOf s)) IdMap.empty⟩ := by
  have hlevels := putLevelRows_ok m.levels ⟨emptyRows f.grid.nLevels, [], IdMap.empty⟩
    fun r hr => by simpa [emptyRows] using (levelAt_index (hm.levels r hr)).1
  have horders := fun ls => putOrderRows_ok m.orders ⟨ls, [], IdMap.empty⟩
    (by rw [hm.orders]; exact List.pairwise_map.mpr hm.sorted) fun _ _ _ h => nomatch h
  rw [putRows, bind_ok hlevels, horders]
  congr 2
  · refine List.ext_getElem? fun i => ?_
    rw [set_levels m.levels fun r hr => (levelAt_index (hm.levels r hr)).2]
    simp only [emptyRows, Flat.loadTable, List.getElem?_map]
    by_cases hi : i < 2 * f.grid.nLevels
    · simp only [List.getElem?_range hi, Option.map_some]
      split <;> rfl
    · simp [List.getElem?_eq_none (show (List.range (2 * f.grid.nLevels)).length ≤ i by simpa using hi)]
  · simp [hm.orders, Flat.orderRecs, Flat.orderTable]
  · rw [hm.orders, Flat.orderRecs, List.foldl_map]

end Decoder

/-- The message of an image whose header is of `version`, resealed. -/
def Image.resealed (crc32c : List UInt8 → UInt32) (m : Image) (version : Nat) : List UInt8 :=
  bytes (m.altered version) ++ le 4 (crc32c (bytes (m.altered version))).toNat

/-- `restore_ultima` looks at the number of levels and at nothing else. -/
theorem restoreUltima_resealed {db : Db} {f : Flat} {m : Image} {slots : List Nat} (hm : m.Of f slots)
    (cfg : SmrConfig) (crc32c : List UInt8 → UInt32) (version : Nat) :
    restoreUltima db crc32c (m.resealed crc32c version) cfg =
      if f.grid.nLevels = cfg.levels then
        UltimaBook.bulkLoad cfg (metaOf m.scalars)
          ⟨f.loadTable (m.levels.map (levelIndex f.grid.nLevels)), f.orderTable slots,
            slots.foldl (fun ids s => ids.insert (f.ord s).orderId (rowOf s)) IdMap.empty⟩
      else .error (.err "nLevels mismatch vs config") := by
  have h₀ : Holds (bytes (m.altered version)) 0 (m.altered version) := ⟨[], [], by simp, rfl⟩
  have h₂ : Holds _ 2 _ := h₀.tail
  have h₄ : Holds _ 4 _ := h₂.tail
  have h₆ : Holds _ 6 _ := h₄.tail
  have h₈ : Holds _ HEADER_LEN _ := h₆.tail
  rw [restoreUltima, Image.resealed, checked_body]
  dsimp only [bind, Except.bind]
  rw [loadMessage_image hm.plain cfg (@Holds.append_left _ 0 [(2, SBE_BLOCK_LENGTH)] _ h₀) h₈, hm.nLevels]
  by_cases hn : f.grid.nLevels = cfg.levels
  · rw [if_pos hn, if_pos hn, ← hn, bind_ok (putRows_ok hm)]
    rfl
  · rw [if_neg hn, if_neg hn]
    rfl

namespace UltimaBook

variable {db : Db}

/-- A bulk load installs the rows it is given. -/
theorem bulkLoad_ok (hdb : db.Lawful) (cfg : SmrConfig) (m : MetaRec) {x : Loading}
    (hl : x.levels.Pairwise fun r r' => r.1 < r'.1) (hl₁ : ∀ r ∈ x.levels, 1 ≤ r.1)
    (ho : x.orders.Pairwise fun r r' => r.1 < r'.1) (ho₁ : ∀ r ∈ x.orders, 1 ≤ r.1) :
    ∃ u l o ms, bulkLoad cfg m x = .ok u ∧ u.Current ⟨some l, some o, some ms⟩ ∧
      (∀ i r, db.get l i = some r ↔ (i, r) ∈ x.levels) ∧
      (∀ i r, db.get o i = some r ↔ (i, r) ∈ x.orders) ∧ 1 ≤ db.nextId o ∧
      (∀ r ∈ x.orders, r.1 < db.nextId o) ∧
      (∀ n ≥ 1, (∀ r ∈ x.orders, r.1 < n) → db.nextId o ≤ n) ∧ db.get ms 1 = some m ∧
      u.priceMin = cfg.priceMin ∧ u.tick = cfg.tick ∧ u.nLevels = cfg.levels ∧ u.ids = x.ids := by
  obtain ⟨l, el, hl, -⟩ := hdb.replace_ok x.levels hl hl₁
  obtain ⟨o, eo, ho, hone, hlast, hleast⟩ := hdb.replace_ok x.orders ho ho₁
  obtain ⟨ms, em, hms, -⟩ := hdb.replace_ok [(1, m)] (List.pairwise_singleton _ _) (by simp)
  obtain ⟨v, store, e, hat⟩ := hdb.bulkCommit_ok (empty db cfg).store
    (⟨some l, some o, some ms⟩ : UltimaTables db)
  refine ⟨{ empty db cfg with store, version := v, ids := x.ids }, l, o, ms, ?_, hat, hl, ho, hone,
    hlast, hleast, (hms 1 m).mpr (by simp), rfl, rfl, rfl, rfl⟩
  have hadd : ∀ {α : Type} {name : String} {rows : List (Nat × α)} {t : db.Table α},
      db.replace rows = .ok t → bulkAdd name rows = .ok t := by
    intro α name rows t h
    simp only [bulkAdd, h]
  rw [bulkLoad, hadd el, hadd eo, hadd em]
  dsimp only [bind, Except.bind]
  rw [e]
  rfl

/-- A book of rows into which the levels of `f` and the orders in `slots` were loaded. -/
structure Loaded (capacity : Nat) (u : UltimaBook db) (f : Flat) (slots : List Nat) : Prop where
  priceMin : u.priceMin = f.grid.priceMin
  tick : u.tick = f.grid.tick
  nLevels : u.nLevels = f.grid.nLevels
  ids : u.ids = slots.foldl (fun ids s => ids.insert (f.ord s).orderId (rowOf s)) IdMap.empty
  tables : ∃ l o ms, u.Current ⟨some l, some o, some ms⟩ ∧ LevelsShow l f ∧
    (∀ i x, db.get o i = some x ↔ (i, x) ∈ f.orderTable slots) ∧ 1 ≤ db.nextId o ∧
    (∀ s ∈ slots, rowOf s < db.nextId o) ∧
    (∀ n, (∀ s ∈ slots, s < n) → db.nextId o ≤ n + 1) ∧ db.get ms 1 = some (f.metaRow capacity)

/-- The image of a memory is loaded, whatever the version in its header and the
capacity among its scalars. -/
theorem restore_loaded (hdb : db.Lawful) {f : Flat} {L : Ledger} {q : Lane → Nat → List Nat}
    (h : Rep f L q) {cfg : SmrConfig} (hgrid : f.grid = cfg.grid) {capacity : Nat} {slots : List Nat}
    (hplain : (f.image capacity slots).Plain) (hsorted : slots.Pairwise (· < ·))
    (crc32c : List UInt8 → UInt32) (version : Nat) :
    ∃ u, restoreUltima db crc32c ((f.image capacity slots).resealed crc32c version) cfg = .ok u ∧
      u.Loaded capacity f slots := by
  have hof : (f.image capacity slots).Of f slots :=
    ⟨hplain, rfl, fun r hr => hr, rfl, hsorted⟩
  have hlevels : f.loadTable (f.levelRecs.map (levelIndex f.grid.nLevels)) = f.levelTable :=
    loadTable_eq h fun r hr => List.mem_map_of_mem hr
  have hrows : ∀ r ∈ f.orderTable slots, 1 ≤ r.1 := by
    intro r hr
    obtain ⟨s, -, rfl⟩ := List.mem_map.mp hr
    exact Nat.succ_pos s
  obtain ⟨u, l, o, ms, e, hcur, hl, ho, hone, hbelow, hleast, hms, hmin, htick, hn, hids⟩ :=
    bulkLoad_ok hdb cfg (metaOf (f.image capacity slots).scalars)
      (x := ⟨f.levelTable, f.orderTable slots,
        slots.foldl (fun ids s => ids.insert (f.ord s).orderId (rowOf s)) IdMap.empty⟩)
      f.levelTable_sorted
      (fun r hr => by obtain ⟨i, -, rfl⟩ := List.mem_map.mp hr; exact Nat.succ_pos i)
      (orderTable_sorted f hsorted) hrows
  refine ⟨u, ?_, hmin.trans (by rw [hgrid]; rfl), htick.trans (by rw [hgrid]; rfl),
    hn.trans (by rw [hgrid]; rfl), hids, l, o, ms, hcur, fun i => ?_, ho, hone, fun s hs => ?_,
    fun n hlt => ?_, hms⟩
  · rw [restoreUltima_resealed hof, if_pos (by rw [hgrid]; rfl)]
    exact hlevels ▸ e
  · exact Option.ext fun r => (hl i r).trans (f.mem_levelTable i r)
  · exact hbelow (rowOf s, f.ord s) (List.mem_map_of_mem hs)
  · refine hleast (n + 1) (by omega) fun r hr => ?_
    obtain ⟨s, hs, rfl⟩ := List.mem_map.mp hr
    exact Nat.succ_lt_succ (hlt s hs)

/-- What the fold over the loaded orders gives for an id. -/
theorem foldl_insert {f : Flat} {slots : List Nat} (ids : IdMap) (i : Int)
    (hinj : ∀ s ∈ slots, ∀ s' ∈ slots, (f.ord s).orderId = i → (f.ord s').orderId = i → s = s') :
    (∀ s ∈ slots, (f.ord s).orderId = i →
      slots.foldl (fun ids s => ids.insert (f.ord s).orderId (rowOf s)) ids i = some (rowOf s)) ∧
    ((∀ s ∈ slots, (f.ord s).orderId ≠ i) →
      slots.foldl (fun ids s => ids.insert (f.ord s).orderId (rowOf s)) ids i = ids i) := by
  induction slots generalizing ids with
  | nil => simp
  | cons t slots ih =>
    obtain ⟨hin, hout⟩ := ih (ids.insert (f.ord t).orderId (rowOf t))
      fun s hs s' hs' => hinj s (by simp [hs]) s' (by simp [hs'])
    refine ⟨fun s hs e => ?_, fun hne => ?_⟩
    · by_cases hmem : ∃ s' ∈ slots, (f.ord s').orderId = i
      · obtain ⟨s', hs', e'⟩ := hmem
        obtain rfl := hinj s hs s' (by simp [hs']) e e'
        exact hin s hs' e
      · have hst : s = t := by
          obtain rfl | hs := List.mem_cons.mp hs
          · rfl
          · exact absurd ⟨s, hs, e⟩ hmem
        subst hst
        refine (hout fun s' hs' e' => hmem ⟨s', hs', e'⟩).trans ?_
        exact if_pos e.symm
    · refine (hout fun s hs => hne s (by simp [hs])).trans ?_
      exact if_neg fun e => hne t (by simp) e.symm

/-- The image of the memory of a book of rows, loaded again: the next row comes
right behind the last one that holds an order. -/
theorem Loaded.shows {u : UltimaBook db} {f : Flat} {L : Ledger} {q : Lane → Nat → List Nat}
    {n capacity : Nat} (hu : u.Loaded capacity f f.slots) (hs : Sparse f L q n) :
    ∃ n' ≤ n, u.Shows capacity ⟨f, n'⟩ ∧ Sparse f L q n' := by
  obtain ⟨hmin, htick, hn, hids, l, o, ms, hcur, hl, ho, hone, hbelow, hleast, hms⟩ := hu
  obtain ⟨n', hn'⟩ : ∃ n', db.nextId o = n' + 1 := ⟨db.nextId o - 1, by omega⟩
  have hmem := mem_slots hs.rep
  refine ⟨n', ?_, ⟨⟨hmin, htick, hn, fun i => ?_⟩, l, o, ms, hcur, hl, ⟨fun i => ?_, hn'⟩, hms⟩,
    hs.rep, hs.blank, fun s hq => ?_, hs.freeHead⟩
  · have := hleast n fun s hmem' => hs.below s ((hmem s).mp hmem')
    omega
  · rw [hids]
    obtain ⟨hin, hout⟩ := @foldl_insert f f.slots IdMap.empty i fun s hs' s' hs'' e e' =>
      hs.rep.slot_unique ((hmem s).mp hs') ((hmem s').mp hs'') (e.trans e'.symm)
    cases e : f.ids i with
    | none =>
      refine hout fun s hs' e' => ?_
      rw [(hs.rep.ids i s).mpr ⟨(hmem s).mp hs', e'⟩] at e
      cases e
    | some s =>
      obtain ⟨hq, e'⟩ := (hs.rep.ids i s).mp e
      exact hin s ((hmem s).mpr hq) e'
  · refine Option.ext fun x => (ho i x).trans ?_
    rw [Flat.orderTable, List.mem_map]
    constructor
    · rintro ⟨s, hs', e⟩
      cases e
      exact f.orderRow_rowOf ((hs.live s).mp ((hmem s).mp hs'))
    · intro e
      cases i with
      | zero => cases e
      | succ s =>
        simp only [Flat.orderRow] at e
        split at e
        · cases e
        · rename_i hlive
          exact ⟨s, (hmem s).mpr ((hs.live s).mpr hlive), by rw [Option.some.inj e]; rfl⟩
  · have := hbelow s ((hmem s).mpr hq)
    simp only [rowOf] at this
    omega

end UltimaBook

end HiPerf

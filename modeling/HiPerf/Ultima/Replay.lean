import HiPerf.Ultima.IntoFlat
import HiPerf.Ultima.Parity
import HiPerf.Ultima.Reload

/-!
A book of rows restored from its own image goes on as if it had never been
restarted, though its new rows may get ids that removed orders had before.
-/

namespace HiPerf

open Machine Tables Exec Bytes

theorem Image.resealed_version (crc32c : List UInt8 → UInt32) (m : Image) :
    m.resealed crc32c SBE_SCHEMA_VERSION = Encoder.sealed crc32c m := by
  rw [Image.resealed, m.altered_eq]
  rfl

namespace UltimaBook

variable {db : Db} {u₀ : UltimaBook db} {cfg : SmrConfig} {ops post : List Op}

/-- After the restore, and after every later call, the restored book has the digest
of the one that was never restarted. -/
theorem replays (hdb : db.Lawful) (hg : cfg.grid.Ok) (h₀ : new db cfg = .ok u₀)
    (hwf : WellFormed cfg [] (ops ++ post)) (hfit : ∀ op ∈ ops ++ post, op.OffsetFits cfg)
    (hne : 1 ≤ inserts ops) (hins : inserts (ops ++ post) ≤ 65535)
    (crc32c : List UInt8 → UInt32) {buf : List UInt8}
    (hbuf : 60 + (LEVELS_BLOCK + ORDERS_BLOCK) * (Ledger.after [] ops).length ≤ buf.length) :
    ∃ u data len r, run ops u₀ = .ok () u ∧
      encodeAt crc32c u.store u.version buf = .ok (data, len) ∧
      restoreUltima db crc32c (data.take len) cfg = .ok r ∧
      ∀ pre, pre <+: post → ∃ u' r' d, run pre u = .ok () u' ∧ run pre r = .ok () r' ∧
        digestUltima u'.store u'.version = .ok d ∧ digestUltima r'.store r'.version = .ok d := by
  obtain ⟨hwf₁, hwf₂⟩ := wellFormed_append.mp hwf
  rw [inserts_append] at hins
  obtain ⟨u, f, q, data, len, eu, hu, hs, hgrid, -, hlen, e, hdata⟩ :=
    encoded hdb hg h₀ hwf₁ (fun op h => hfit op (List.mem_append_left _ h)) hne (by omega) crc32c hbuf
  obtain ⟨r, er, hr⟩ := restore_loaded hdb hs.rep hgrid (hs.image_plain hlen cfg.cap)
    (slots_sorted f) crc32c SBE_SCHEMA_VERSION
  obtain ⟨n', hn', hr, hs'⟩ := hr.shows hs
  rw [Image.resealed_version, ← hdata] at er
  refine ⟨u, data, len, r, eu, e, er, fun pre hpre => ?_⟩
  obtain ⟨rest, rfl⟩ := hpre
  rw [inserts_append] at hins
  have hadm : Admitted f.grid (Ledger.after [] ops) pre :=
    hgrid ▸ (hwf₂.prefix_of ⟨rest, rfl⟩).admitted_of hg fun op h => hfit op (by simp [h])
  have hnil : (65535 : Nat) ≤ NIL := by decide
  obtain ⟨u', f₁, q₁, eu', hg₁, hrep₁, hd₁⟩ := hu.run hdb hs hadm (by omega)
  obtain ⟨r', f₂, q₂, er', hg₂, hrep₂, hd₂⟩ := hr.run hdb hs' hadm (by omega)
  refine ⟨u', r', _, eu', er', hd₁, ?_⟩
  rw [hd₂, digest_eq_of_rep hrep₁ hrep₂ (hg₂.trans hg₁.symm)]

theorem replays_smallRun : ∃ u₀ u data len r, new reference smallBook = .ok u₀ ∧
    run restingRun u₀ = .ok () u ∧
    encodeAt crc32c u.store u.version (List.replicate 300 0) = .ok (data, len) ∧
    restoreUltima reference crc32c (data.take len) smallBook = .ok r ∧
    ∀ pre, pre <+: smallRun.drop 4 → ∃ u' r' d, run pre u = .ok () u' ∧ run pre r = .ok () r' ∧
      digestUltima u'.store u'.version = .ok d ∧ digestUltima r'.store r'.version = .ok d := by
  obtain ⟨u₀, e₀, -⟩ := new_opens reference_lawful smallBook
  have hwf : WellFormed smallBook [] (restingRun ++ smallRun.drop 4) := by decide
  have hfit : ∀ op ∈ restingRun ++ smallRun.drop 4, op.OffsetFits smallBook := by decide
  obtain ⟨u, data, len, r, h⟩ := replays reference_lawful smallBook_ok e₀ hwf hfit (by decide)
    (by decide) crc32c
    (show _ ≤ (List.replicate 300 (0 : UInt8)).length by rw [List.length_replicate]; decide)
  exact ⟨u₀, u, data, len, r, e₀, h⟩

/-- An insert whose level has no row stops. -/
theorem insert_stops (hdb : db.Lawful) {u : UltimaBook db} {m : Tape} {capacity : Nat}
    (hu : u.Opens capacity m) (htick : 0 < m.flat.grid.tick) {orderId price qty : Int} {side : Nat}
    (hrow : m.flat.levelRow (side * m.flat.grid.nLevels + m.flat.grid.tickOf price + 1) = none) :
    ∃ p u', apply (.insert orderId price qty side) u = .error p u' := by
  obtain ⟨hk, l, os, o, ms, hcur, -, hshow⟩ := hu
  have hk' : (u.inStore u.store (u.version + 1)).Knows m.flat :=
    ⟨hk.priceMin, hk.tick, hk.nLevels, hk.ids⟩
  have hlevel : db.get l ((u.inStore u.store (u.version + 1)).levelId side
      (m.flat.grid.tickOf price)) = none := by
    rw [hshow.levels, ← hrow, levelId, hk'.nLevels]
  have hstop : applyInsert ⟨some l, os, some ms⟩ orderId price qty side
      (u.inStore u.store (u.version + 1)) =
      .error (.message "level") (u.inStore u.store (u.version + 1)) := by
    unfold applyInsert
    rw [bind_ok (tickOf_run hk' htick price), get_bind]
    simp only [openTable, hdb.openTable_some, expect, pure_bind, hlevel]
    rfl
  refine ⟨.message "level", u.inStore u.store (u.version + 1), ?_⟩
  change transaction (fun wtx => applyInsert wtx orderId price qty side) u = _
  rw [transaction_run hdb hcur.latest hcur.head, bind_error hstop]

end UltimaBook

/-- The ladder of `wideLadder` and room for two orders. -/
def wideLadder₂ : SmrConfig := { wideLadder with cap := 2 }

theorem wideLadder₂_ok : wideLadder₂.grid.Ok :=
  ⟨by decide, by decide, by decide, by decide, by decide⟩

namespace UltimaBook

/-- The offset bound is needed: neither book gets past an order at the top of a
ladder that spans more than a 64-bit value. -/
theorem not_replays_wideLadder : wideLadder₂.grid.Ok ∧
    WellFormed wideLadder₂ []
      [.insert 1 (-9223372036854775808) 1 0, .insert 2 4611686018427387904 1 0] ∧
    ∃ u₀ u data len r, new reference wideLadder₂ = .ok u₀ ∧
      run [.insert 1 (-9223372036854775808) 1 0] u₀ = .ok () u ∧
      encodeAt crc32c u.store u.version (List.replicate 200 0) = .ok (data, len) ∧
      restoreUltima reference crc32c (data.take len) wideLadder₂ = .ok r ∧
      (∃ p u', run [.insert 2 4611686018427387904 1 0] u = .error p u') ∧
      ∃ p r', run [.insert 2 4611686018427387904 1 0] r = .error p r' := by
  refine ⟨wideLadder₂_ok, by decide, ?_⟩
  obtain ⟨u₀, e₀, -⟩ := new_opens reference_lawful wideLadder₂
  have hwf : WellFormed wideLadder₂ [] [.insert 1 (-9223372036854775808) 1 0] := by decide
  obtain ⟨u, f, q, data, len, eu, hu, hs, hgrid, -, hlen, e, hdata⟩ :=
    encoded reference_lawful wideLadder₂_ok e₀ hwf (by decide) (by decide) (by decide) crc32c
      (show _ ≤ (List.replicate 200 (0 : UInt8)).length by rw [List.length_replicate]; decide)
  obtain ⟨r, er, hr⟩ := restore_loaded reference_lawful hs.rep hgrid
    (hs.image_plain hlen wideLadder₂.cap) (slots_sorted f) crc32c SBE_SCHEMA_VERSION
  obtain ⟨n', -, hr, -⟩ := hr.shows hs
  rw [Image.resealed_version, ← hdata] at er
  have hrow : f.levelRow (0 * f.grid.nLevels + f.grid.tickOf 4611686018427387904 + 1) = none := by
    have htick : 2 * f.grid.nLevels < f.grid.tickOf 4611686018427387904 := by
      rw [hgrid]
      decide
    exact if_pos (.inr (by omega))
  have hstop : ∀ {v : UltimaBook reference} {n : Nat}, v.Shows (u32 wideLadder₂.cap) ⟨f, n⟩ →
      ∃ p v', run [.insert 2 4611686018427387904 1 0] v = .error p v' := by
    intro v n hv
    obtain ⟨p, v', e⟩ := @insert_stops _ reference_lawful v ⟨f, n⟩ _ (hv.opens reference_lawful)
      hs.rep.grid_ok.tick_pos 2 4611686018427387904 1 0 hrow
    exact ⟨p, v', bind_error e _⟩
  exact ⟨u₀, u, data, len, r, e₀, eu, e, er, hstop hu, hstop hr⟩

end UltimaBook

end HiPerf

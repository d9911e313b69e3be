import HiPerf.Go.Reload

/-!
The snapshots of the Go book and of the Rust book side by side: one image, from which the
Go book is restored and goes on.
-/

namespace HiPerf.Go

open Machine Exec

/-- Both books take the same calls from here on, and stay alike. -/
def GoesOn (cfg : SmrConfig) (L : Ledger) (g : Book) (b : HiPerf.Book) : Prop :=
  ∀ ops, WellFormed cfg L ops → Fits cfg L ops → ∃ g' b', Book.run ops g = .ok () g' ∧
    HiPerf.Book.run ops b = .ok () b' ∧ Alike g' b'

/-- What becomes of the image: it is restored to a book that goes on as `b` does, or refused
where the capacity does not fit its 32 bits. -/
def Reloads (crc32c : List UInt8 → UInt32) (cfg : SmrConfig) (L : Ledger) (image : List UInt8)
    (b : HiPerf.Book) : Prop :=
  (cfg.cap < 4294967296 → ∃ g, Snapshot.restore crc32c image cfg = .ok g ∧ GoesOn cfg L g b) ∧
    (4294967296 ≤ cfg.cap → ∃ text, Snapshot.restore crc32c image cfg = .error (.err text))

section

variable {cfg : SmrConfig} {L : Ledger} {f : Flat} {size : Nat} {g : Book} {b : HiPerf.Book}

/-- Books that show one memory go on alike. -/
theorem Book.Shows.goesOn (hgrid : cfg.grid.Ok) (hg : g.Shows cfg.cap size (f.hwm, f))
    (hroom : cfg.cap < size) (hb : b.Shows cfg.cap f) (hnarrow : b.Narrow)
    (hf : f.grid = cfg.grid) (h : f.Holds cfg.cap L) : GoesOn cfg L g b := by
  intro ops hwf hfit
  have hready := hwf.ready hgrid hfit
  obtain ⟨hgo, hholds⟩ := Book.run_ready hf h hroom hready
  obtain ⟨hrust, -, -⟩ := HiPerf.Book.run_ready hf h hready
  obtain ⟨g', e, hg'⟩ := hgo g hg
  obtain ⟨b', e', hb'⟩ := hrust b hb
  have hshape := HiPerf.Book.run_shaped ops b
  rw [last_ok e'] at hshape
  have hfew := Book.few_of_holds hholds hroom
  obtain ⟨q, fl, -, -, hmark⟩ := hholds
  exact ⟨g', b', e, e', hg'.alike hb' (hnarrow.of_shape hshape) hfew hmark⟩

theorem reloads (hgrid : cfg.grid.Ok) (crc32c : List UInt8 → UInt32) (hpos : 1 ≤ cfg.cap)
    (hcap : cfg.cap ≤ 2305843009213693952) (hb : b.Shows cfg.cap f) (hnarrow : b.Narrow)
    (hf : f.grid = cfg.grid) (h : f.Holds cfg.cap L) (hhwm : f.hwm ≤ 65535) :
    Reloads crc32c cfg L (Encoder.sealed crc32c (f.image (u32 cfg.cap) (List.range f.hwm))) b := by
  have hlevels : cfg.levels = f.grid.nLevels := by
    rw [hf]
    rfl
  obtain ⟨hok, herr⟩ := Snapshot.restore_sealed crc32c h hlevels hpos hcap hhwm
  constructor
  · intro hsmall
    have hu : u32 (cfg.cap : Int) = cfg.cap := by
      simp only [u32]
      omega
    obtain ⟨g, size, hroom, hg, e⟩ := hok hu
    exact ⟨g, e, hg.goesOn hgrid hroom hb hnarrow hf h⟩
  · intro hlarge
    apply herr
    simp only [u32]
    omega

end

/-- After any well-formed calls both encoders write one image, which the Go book reloads, as
long as no more than 65534 slots are in use. Beyond that the Go encoder stops. -/
theorem snapshots_agree {cfg : SmrConfig} {ops : List Op} (hgrid : cfg.grid.Ok) (hpos : 1 ≤ cfg.cap)
    (hcap : cfg.cap ≤ 2305843009213693952) (hwf : WellFormed cfg [] ops) (hfit : Fits cfg [] ops)
    (crc32c : List UInt8 → UInt32) :
    ∃ g₀ g b, newBook cfg = some g₀ ∧ Book.run ops g₀ = .ok () g ∧
      HiPerf.Book.run ops (HiPerf.Book.new cfg) = .ok () b ∧
      (b.hwm ≤ 65534 → ∃ image,
        (∀ buf, ∃ rest, Book.encode crc32c g buf = .ok (image, image ++ rest)) ∧
        (∀ buf, image.length ≤ buf.length → HiPerf.Book.encode crc32c b buf =
          .ok (image ++ buf.drop image.length, image.length)) ∧
        Reloads crc32c cfg (Ledger.after [] ops) image b) ∧
      (65534 < b.hwm → ∀ buf, ∃ p, Book.encode crc32c g buf = .error p) := by
  obtain ⟨g₀, m, size, hnew, hmap, hm, hroom, hg₀⟩ := @Book.newBook_shows cfg hpos hcap
  have hholds := HiPerf.Book.new_holds hgrid
  have hready := hwf.ready hgrid hfit
  obtain ⟨hgo, -⟩ := Book.run_ready (f := (HiPerf.Book.new cfg).view) rfl hholds hroom hready
  obtain ⟨hrust, hend, hf⟩ := HiPerf.Book.run_ready (f := (HiPerf.Book.new cfg).view) rfl hholds hready
  obtain ⟨g, e, hg⟩ := hgo g₀ hg₀
  obtain ⟨b, e', hb⟩ := hrust _ (HiPerf.Book.new_shows cfg)
  have hshape := HiPerf.Book.run_shaped ops (HiPerf.Book.new cfg)
  rw [last_ok e'] at hshape
  have hnarrow := (HiPerf.Book.new_narrow cfg).of_shape hshape
  have hmark : b.hwm = (Flat.steps (HiPerf.Book.new cfg).view ops).hwm := hb.hwm_eq
  obtain ⟨q, fl, hrep, hfl, hle⟩ := hend
  have hlevels := hrep.grid_ok.levels_le
  refine ⟨g₀, g, b, hnew, e, e', fun hhwm => ?_, fun hhwm buf => ?_⟩
  · rw [hmark] at hhwm
    have hrecs := Snapshot.levelRecs_length_le hrep hfl
    have himage := hb.image_eq hnarrow hrep hle (by omega)
    obtain ⟨-, hencode⟩ := HiPerf.Book.encode_whole hb hrep hle (by omega) crc32c
    rw [himage] at hencode
    refine ⟨_, fun buf => ?_, hencode, ?_⟩
    · exact Book.encode_ok crc32c hg (by omega) (by omega) hhwm buf
    · exact reloads hgrid crc32c hpos hcap hb hnarrow hf ⟨q, fl, hrep, hfl, hle⟩ (by omega)
  · rw [hmark] at hhwm
    exact Book.encode_stops crc32c hg (by omega) hhwm buf

theorem snapshots_agree_smallRun :
    ∃ g₀ g b, newBook smallBook = some g₀ ∧ Book.run smallRun g₀ = .ok () g ∧
      HiPerf.Book.run smallRun (HiPerf.Book.new smallBook) = .ok () b ∧
      (b.hwm ≤ 65534 → ∃ image,
        (∀ buf, ∃ rest, Book.encode Bytes.crc32c g buf = .ok (image, image ++ rest)) ∧
        (∀ buf, image.length ≤ buf.length → HiPerf.Book.encode Bytes.crc32c b buf =
          .ok (image ++ buf.drop image.length, image.length)) ∧
        Reloads Bytes.crc32c smallBook (Ledger.after [] smallRun) image b) ∧
      (65534 < b.hwm → ∀ buf, ∃ p, Book.encode Bytes.crc32c g buf = .error p) :=
  snapshots_agree smallBook_ok (by decide) (by decide) smallRun_wellFormed smallRun_fits Bytes.crc32c

end HiPerf.Go

import FuseeOS.Boot.Video

/-!
# The console in graphical mode

* `gfxRows_spec`            the pixels of a glyph;
* `inScanLine`              they lie in the scan lines of the character's cell;
* `videoPutchar_gfx`        one character;
* **`gfx_console`**         a text stays inside the framebuffer and the font if and only if its characters
                            are ASCII;
* `gfx_console_wrong`       the font has no other glyphs.
-/

namespace FuseeOS

/-- a mode of 32 bits a pixel in which there is room for a character -/
structure GraphicalMode.Ok (g : GraphicalMode) : Prop where
  width : FONT_W ≤ g.width ∧ g.width < 2^16
  height : FONT_H ≤ g.height ∧ g.height < 2^16
  bpp : g.bpp = 32
  pitch : 4 * g.width ≤ g.pitch
  size : g.pitch * g.height < 2^32

/-- the pixel at offset `o` lies in a scan line, within its first `4 * width` bytes -/
def GraphicalMode.InScanLine (g : GraphicalMode) (o : Nat) : Prop :=
  ∃ line col, line < g.height ∧ col + 4 ≤ 4 * g.width ∧ o = line * g.pitch + col

/-- the characters of which the font has a glyph; a newline needs none -/
def HasGlyph (c : UInt8) : Prop := c = NEWLINE ∨ c.toNat < 128

instance (c : UInt8) : Decidable (HasGlyph c) := inferInstanceAs (Decidable (_ ∨ _))

section
variable {g : GraphicalMode} {s : Screen} {c : UInt8}

/-- a pixel in a scan line is inside the framebuffer -/
theorem GraphicalMode.InScanLine.inside (hg : g.Ok) {o : Nat} (h : g.InScanLine o) :
    o + 4 ≤ g.pitch * g.height := by
  obtain ⟨line, col, hline, hcol, rfl⟩ := h
  have hpitch := hg.pitch
  calc line * g.pitch + col + 4 ≤ line * g.pitch + g.pitch := by omega
    _ = (line + 1) * g.pitch := (Nat.add_one_mul line g.pitch).symm
    _ ≤ g.height * g.pitch := Nat.mul_le_mul_right _ hline
    _ = g.pitch * g.height := Nat.mul_comm _ _

/-- the rows of a glyph that the font has -/
theorem gfxRows_spec (fontPtr j ptr n : Nat) (s : Screen) (h : fontPtr + j + n ≤ gFont.length) :
    ∃ pixels, gfxRows fontPtr j ptr n s = some { s with pixels := s.pixels ++ pixels } ∧
      ∀ p ∈ pixels, ∃ k < n, ∃ i < FONT_W, p.1 = ptr + k * s.video.pitch + 4 * i := by
  induction n generalizing s j ptr with
  | zero =>
    refine ⟨[], ?_, fun p hp => absurd hp List.not_mem_nil⟩
    rw [gfxRows, List.append_nil]
  | succ n ih =>
    have hread : fontPtr + j < gFont.length := by omega
    obtain ⟨bits, hbits⟩ : ∃ bits, gFont[fontPtr + j]? = some bits := ⟨_, List.getElem?_eq_getElem hread⟩
    obtain ⟨pixels, hrows, hpixels⟩ := ih (j + 1) (ptr + s.video.pitch)
      { s with pixels := s.pixels ++ gfxRow ptr bits } (by omega)
    refine ⟨gfxRow ptr bits ++ pixels, ?_, fun p hp => ?_⟩
    · rw [gfxRows, hbits, Option.bind_eq_bind, Option.bind_some, hrows, List.append_assoc]
    · rcases List.mem_append.mp hp with hp | hp
      · obtain ⟨i, hi, rfl⟩ := List.mem_map.mp hp
        refine ⟨0, Nat.succ_pos n, i, List.mem_range.mp hi, ?_⟩
        rw [Nat.zero_mul, Nat.add_zero]
      · obtain ⟨k, hk, i, hi, he⟩ := hpixels p hp
        refine ⟨k + 1, Nat.succ_lt_succ hk, i, hi, ?_⟩
        rw [he, Nat.add_one_mul k]
        show ptr + s.video.pitch + k * s.video.pitch + 4 * i = _
        omega

/-- a glyph in a cell of the screen -/
theorem inScanLine (hg : g.Ok) {x y k i : Nat} (hx : x < g.width / FONT_W) (hy : y < g.height / FONT_H)
    (hk : k < FONT_H) (hi : i < FONT_W) :
    g.InScanLine (y * FONT_H * g.pitch % 2^32 + x * FONT_W * 4 + k * g.pitch + 4 * i) := by
  unfold FONT_W FONT_H at *
  have hline : y * 8 + k < g.height := by omega
  have hwrap : y * 8 * g.pitch < 2^32 := by
    refine Nat.lt_of_le_of_lt ?_ hg.size
    rw [Nat.mul_comm g.pitch]
    exact Nat.mul_le_mul_right _ (by omega)
  refine ⟨y * 8 + k, x * 8 * 4 + 4 * i, hline, by omega, ?_⟩
  rw [Nat.mod_eq_of_lt hwrap, Nat.add_mul]
  omega

/-- the console in mode `g`, with all pixels so far in scan lines -/
structure GfxScreen (g : GraphicalMode) (s : Screen) : Prop where
  mode : s.video.mode = VIDEO_MODE_GFX
  pitch : s.video.pitch = g.pitch
  maxX : s.video.textMaxX = g.width / FONT_W
  maxY : s.video.textMaxY = g.height / FONT_H
  cursor : s.CursorOk
  pixels : ∀ p ∈ s.pixels, g.InScanLine p.1

theorem gfxScreen_set (hg : g.Ok) (s : Screen) : GfxScreen g (videoSetGraphicalMode g s) := by
  have hw := hg.width
  have hh := hg.height
  have hx : 1 ≤ g.width / FONT_W ∧ g.width / FONT_W < 2^16 := by
    unfold FONT_W at *
    omega
  have hy : 1 ≤ g.height / FONT_H ∧ g.height / FONT_H < 2^16 := by
    unfold FONT_H at *
    omega
  exact ⟨rfl, rfl, rfl, rfl, ⟨hx, hy, Nat.zero_le _, Nat.zero_le _, fun _ => hy.1⟩,
    fun p hp => absurd hp List.not_mem_nil⟩

/-- the cursor may go anywhere inside -/
theorem GfxScreen.setCursor (h : GfxScreen g s) {x y : Nat} (hx : x ≤ s.video.textMaxX)
    (hy : y ≤ s.video.textMaxY) (hcorner : x = s.video.textMaxX → y < s.video.textMaxY) :
    GfxScreen g (s.setCursor x y) :=
  ⟨h.mode, h.pitch, h.maxX, h.maxY, ⟨h.cursor.maxX, h.cursor.maxY, hx, hy, hcorner⟩, h.pixels⟩

/-- where the cursor is when the character is placed -/
theorem GfxScreen.scrollLine (h : GfxScreen g s) :
    ∃ s', (BootVideModeHandler.mk videoGfxPutchar videoGfxScroll).scrollLine s.wrapLine = some s' ∧
      GfxScreen g s' ∧ s'.video.textCursorX < s'.video.textMaxX ∧ s'.video.textCursorY < s'.video.textMaxY := by
  obtain ⟨hcursor, hx⟩ := wrapLine_spec h.cursor
  have hwrap : GfxScreen g s.wrapLine ∧ s.wrapLine.video.textMaxX = s.video.textMaxX := by
    unfold Screen.wrapLine at hcursor ⊢
    split_ifs at hcursor ⊢ with hend
    · exact ⟨h.setCursor hcursor.x hcursor.y hcursor.corner, rfl⟩
    · exact ⟨h, rfl⟩
  obtain ⟨hscreen, hmax⟩ := hwrap
  rw [← hmax] at hx
  have hy := hcursor.y
  have hy1 := hcursor.maxY.1
  unfold BootVideModeHandler.scrollLine
  by_cases hend : s.wrapLine.video.textCursorY = s.wrapLine.video.textMaxY
  · have hpred : (if s.wrapLine.video.textCursorY = 0 then 2^16 - 1 else s.wrapLine.video.textCursorY - 1) <
        s.wrapLine.video.textMaxY := by
      rw [if_neg (by omega)]
      omega
    rw [if_pos hend]
    exact ⟨_, rfl, hscreen.setCursor (Nat.le_of_lt hx) (Nat.le_of_lt hpred) (fun _ => hpred), hx, hpred⟩
  · rw [if_neg hend]
    exact ⟨_, rfl, hscreen, hx, Nat.lt_of_le_of_ne hy hend⟩

/-- **One character** with a glyph, or a newline; there is no other. -/
theorem videoPutchar_gfx (hg : g.Ok) (h : GfxScreen g s) :
    (HasGlyph c → ∃ s', videoPutchar c s = some s' ∧ GfxScreen g s') ∧
      (¬ HasGlyph c → videoPutchar c s = none) := by
  have hhandler : gVideoHandlers[s.video.mode]? = some ⟨videoGfxPutchar, videoGfxScroll⟩ := by
    rw [h.mode]
    rfl
  obtain ⟨t, ht, hscreen, hx, hy⟩ := h.scrollLine
  have hmaxX := hscreen.cursor.maxX
  have hmaxY := hscreen.cursor.maxY
  rw [videoPutchar_eq hhandler, ht, Option.bind_some]
  unfold BootVideModeHandler.place
  by_cases hnl : c = NEWLINE
  · have hsucc : (t.video.textCursorY + 1) % 2^16 = t.video.textCursorY + 1 := by omega
    rw [if_pos hnl]
    refine ⟨fun _ => ⟨_, rfl, ?_⟩, fun hno => absurd (Or.inl hnl) hno⟩
    rw [hsucc]
    exact hscreen.setCursor (Nat.zero_le _) hy (fun h0 => by omega)
  · rw [if_neg hnl]
    dsimp only
    unfold videoGfxPutchar
    constructor
    · intro hglyph
      have hfont : c.toNat * FONT_H + 0 + FONT_H ≤ gFont.length := by
        have hc := hglyph.resolve_left hnl
        rw [gFont_length]
        unfold FONT_H
        omega
      obtain ⟨pixels, hrows, hpixels⟩ := gfxRows_spec (c.toNat * FONT_H) 0
        (t.video.textCursorY * FONT_H * t.video.pitch % 2^32 + t.video.textCursorX * FONT_W * 4) FONT_H t hfont
      have hsucc : (t.video.textCursorX + 1) % 2^16 = t.video.textCursorX + 1 := by omega
      have hall : GfxScreen g { t with pixels := t.pixels ++ pixels } := by
        refine ⟨hscreen.mode, hscreen.pitch, hscreen.maxX, hscreen.maxY, hscreen.cursor.congr rfl, fun p hp => ?_⟩
        rcases List.mem_append.mp hp with hp | hp
        · exact hscreen.pixels p hp
        · obtain ⟨k, hk, i, hi, he⟩ := hpixels p hp
          rw [he, hscreen.pitch]
          exact inScanLine hg (hscreen.maxX ▸ hx) (hscreen.maxY ▸ hy) hk hi
      rw [hrows, Option.map_some]
      refine ⟨_, rfl, ?_⟩
      rw [hsucc]
      exact hall.setCursor hx (Nat.le_of_lt hy) (fun _ => hy)
    · intro hno
      have hc : 128 ≤ c.toNat := Nat.le_of_not_lt fun hlt => hno (Or.inr hlt)
      have hout : gFont[c.toNat * FONT_H + 0]? = none := by
        rw [List.getElem?_eq_none_iff, gFont_length]
        unfold FONT_H
        omega
      have hnone : ∀ ptr, gfxRows (c.toNat * FONT_H) 0 ptr FONT_H t = none := fun ptr => by
        unfold FONT_H at hout ⊢
        rw [gfxRows, hout]
        rfl
      rw [hnone, Option.map_none]

/-- **The graphical console** stays inside its framebuffer and its font if and only if every character is
ASCII. -/
theorem gfx_console (hg : g.Ok) (s : Screen) (text : List UInt8) :
    (∃ s', videoPuts text (videoSetGraphicalMode g s) = some s' ∧
      ∀ p ∈ s'.pixels, g.InScanLine p.1 ∧ p.1 + 4 ≤ g.pitch * g.height) ↔ ∀ c ∈ text, HasGlyph c := by
  have key : ∀ text t, GfxScreen g t →
      ((∃ s', videoPuts text t = some s' ∧ GfxScreen g s') ↔ ∀ c ∈ text, HasGlyph c) ∧
      ((∃ s', videoPuts text t = some s') → ∀ c ∈ text, HasGlyph c) := by
    intro text
    induction text with
    | nil =>
      intro t ht
      exact ⟨iff_of_true ⟨t, rfl, ht⟩ (fun c hc => absurd hc List.not_mem_nil),
        fun _ c hc => absurd hc List.not_mem_nil⟩
    | cons c text ih =>
      intro t ht
      rw [videoPuts_cons, List.forall_mem_cons]
      obtain ⟨hglyph, hno⟩ := videoPutchar_gfx (c := c) hg ht
      by_cases hc : HasGlyph c
      · obtain ⟨t', ht', hscreen⟩ := hglyph hc
        rw [ht', Option.bind_some]
        obtain ⟨hiff, hsome⟩ := ih t' hscreen
        exact ⟨hiff.trans ⟨fun h => ⟨hc, h⟩, fun h => h.2⟩, fun h => ⟨hc, hsome h⟩⟩
      · rw [hno hc, Option.bind_none]
        exact ⟨iff_of_false (fun ⟨_, h, _⟩ => nomatch h) (fun h => hc h.1), fun ⟨_, h⟩ => nomatch h⟩
  obtain ⟨hiff, hsome⟩ := key text _ (gfxScreen_set hg s)
  constructor
  · rintro ⟨s', hs', -⟩
    exact hsome ⟨s', hs'⟩
  · intro h
    obtain ⟨s', hs', hscreen⟩ := hiff.mpr h
    refine ⟨s', hs', fun p hp => ?_⟩
    have hin := hscreen.pixels p hp
    exact ⟨hin, hin.inside hg⟩

end

/-- 640 by 480 pixels -/
def vga : GraphicalMode := ⟨0xe0000000, 640, 480, 32, 2560⟩

theorem vga_ok : vga.Ok := ⟨by decide, by decide, rfl, by decide, by decide⟩

/-- a screen before the mode is set -/
def darkScreen : Screen := ⟨⟨0, 0, 0, 0, 0, 0, 0, 0, 0, 0⟩, [], []⟩

theorem gfx_console_ascii : ∃ s', videoPuts [72, 105, 10] (videoSetGraphicalMode vga darkScreen) = some s' ∧
    ∀ p ∈ s'.pixels, vga.InScanLine p.1 ∧ p.1 + 4 ≤ vga.pitch * vga.height :=
  (gfx_console vga_ok darkScreen [72, 105, 10]).mpr (by simp [HasGlyph, NEWLINE])

/-- The font ends with character 127. -/
theorem gfx_console_wrong : ¬ ∀ (g : GraphicalMode) (s : Screen) (text : List UInt8), g.Ok →
    ∃ s', videoPuts text (videoSetGraphicalMode g s) = some s' ∧
      ∀ p ∈ s'.pixels, g.InScanLine p.1 ∧ p.1 + 4 ≤ g.pitch * g.height := by
  intro h
  obtain ⟨s', hs', -⟩ := h vga darkScreen [128] vga_ok
  obtain ⟨-, hno⟩ := videoPutchar_gfx (c := 128) vga_ok (gfxScreen_set vga_ok darkScreen)
  rw [videoPuts_cons, hno (by decide), Option.bind_none] at hs'
  exact nomatch hs'

end FuseeOS

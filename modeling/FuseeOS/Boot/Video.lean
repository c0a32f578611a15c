import FuseeOS.Lib.CInt
import FuseeOS.Lib.Terminal
import FuseeOS.Boot.Font

/-!
# The console

`libboot/video`: the cursor, with a buffer of cells in text mode and a framebuffer of pixels in graphical
mode.  A pixel is only ever stored: the framebuffer is the list of what was stored in it.

* `wrapLine_spec`                   the cursor stays inside, with at most one of its coordinates at the end;
* `scrollCopy_spec`, `scrollClear_spec`
                                    the loops of `video_text_scroll`;
* `videoTextScroll_eq`              which moves all rows up by one;
* `videoInit_cleared`               so that `video_init` clears the screen.
-/

namespace FuseeOS
open CInt

/-! ## the code -/

def VIDEO_MODE_TEXT : Nat := 0
def VIDEO_MODE_GFX : Nat := 1

structure BootVideo where
  mode : Nat
  width : Nat
  height : Nat
  bpp : Nat
  pitch : Nat
  textCursorX : Nat
  textCursorY : Nat
  textMaxX : Nat
  textMaxY : Nat
  framebuffer : Nat
deriving DecidableEq, Repr

structure Screen where
  video : BootVideo
  /-- the cells of the text buffer -/
  cells : List UInt16
  /-- offset and colour of the pixels stored, the last one at the end -/
  pixels : List (Nat × Nat)
deriving DecidableEq, Repr

def Screen.setCursor (s : Screen) (x y : Nat) : Screen :=
  { s with video := { s.video with textCursorX := x, textCursorY := y } }

structure BootVideModeHandler where
  putchar : UInt8 → Nat → Nat → Screen → Option Screen
  scroll : Screen → Option Screen

/-- `buf[i] = v`, `none` outside of the buffer -/
def storeCell (buf : List UInt16) (i : Nat) (v : UInt16) : Option (List UInt16) :=
  if i < buf.length then some (buf.set i v) else none

/-- `0x0f00 | (c & 0xff)` -/
def textCell (c : UInt8) : UInt16 := 0x0f00 ||| c.toUInt16

def videoTextPutchar (c : UInt8) (x y : Nat) (s : Screen) : Option Screen := do
  let line ← intMul? y s.video.textMaxX
  let i ← intAdd? line x
  let cells ← storeCell s.cells i.toNat (textCell c)
  return { s with cells := cells }

/-- the first loop of `video_text_scroll` from `i` on, with `n` rounds to go -/
def scrollCopy (maxX i : Nat) : Nat → List UInt16 → Option (List UInt16)
  | 0, buf => some buf
  | n + 1, buf => do
    let v ← buf[i + maxX]?
    let buf ← storeCell buf i v
    scrollCopy maxX (i + 1) n buf

/-- the second loop -/
def scrollClear (tmp i : Nat) : Nat → List UInt16 → Option (List UInt16)
  | 0, buf => some buf
  | n + 1, buf => do
    let buf ← storeCell buf (tmp + i) 0
    scrollClear tmp (i + 1) n buf

def videoTextScroll (s : Screen) : Option Screen := do
  let size ← intMul? s.video.textMaxX (s.video.textMaxY - 1)
  let tmp := toU64 size
  let cells ← scrollCopy s.video.textMaxX 0 tmp s.cells
  let cells ← scrollClear tmp 0 s.video.textMaxX cells
  return { s with cells := cells }

/-- the inner loop of `video_gfx_putchar`: the pixels of one row of a glyph -/
def gfxRow (ptr bits : Nat) : List (Nat × Nat) :=
  (List.range FONT_W).map fun i => (ptr + 4 * i, if bits &&& (1 <<< i) ≠ 0 then 0xffffffff else 0)

/-- the outer loop from row `j` on, with `n` rounds to go -/
def gfxRows (fontPtr j ptr : Nat) : Nat → Screen → Option Screen
  | 0, s => some s
  | n + 1, s => do
    let bits ← gFont[fontPtr + j]?
    gfxRows fontPtr (j + 1) (ptr + s.video.pitch) n { s with pixels := s.pixels ++ gfxRow ptr bits }

/-- `y * FONT_H * pitch` has 32 bits -/
def videoGfxPutchar (c : UInt8) (x y : Nat) (s : Screen) : Option Screen :=
  gfxRows (c.toNat * FONT_H) 0 (y * FONT_H * s.video.pitch % 2^32 + x * FONT_W * 4) FONT_H s

def videoGfxScroll (s : Screen) : Option Screen := some s

def gVideoHandlers : List BootVideModeHandler :=
  [⟨videoTextPutchar, videoTextScroll⟩, ⟨videoGfxPutchar, videoGfxScroll⟩]

/-- `n` calls of `video_text_scroll` -/
def scrollTimes : Nat → Screen → Option Screen
  | 0, s => some s
  | n + 1, s => (videoTextScroll s).bind (scrollTimes n)

def videoInit (s : Screen) : Option Screen :=
  let video := { s.video with
    mode := VIDEO_MODE_TEXT, textCursorX := 0, textCursorY := 0, textMaxX := 80, textMaxY := 25,
    framebuffer := 0xb8000 }
  scrollTimes video.textMaxY { s with video := video }

/-- the arguments of `video_set_graphical_mode` -/
structure GraphicalMode where
  framebuffer : Nat
  width : Nat
  height : Nat
  bpp : Nat
  pitch : Nat
deriving DecidableEq, Repr

/-- nothing is stored in the framebuffer yet -/
def videoSetGraphicalMode (g : GraphicalMode) (s : Screen) : Screen where
  video :=
    { mode := VIDEO_MODE_GFX
      framebuffer := g.framebuffer
      width := g.width
      height := g.height
      bpp := g.bpp
      pitch := g.pitch
      textCursorX := 0
      textCursorY := 0
      textMaxX := g.width / FONT_W
      textMaxY := g.height / FONT_H }
  cells := s.cells
  pixels := []

/-- the character `\n` -/
def NEWLINE : UInt8 := 10

/-- behind the last column -/
def Screen.wrapLine (s : Screen) : Screen :=
  if s.video.textCursorX = s.video.textMaxX then s.setCursor 0 ((s.video.textCursorY + 1) % 2^16) else s

/-- behind the last row -/
def BootVideModeHandler.scrollLine (handler : BootVideModeHandler) (s : Screen) : Option Screen :=
  if s.video.textCursorY = s.video.textMaxY then
    handler.scroll (s.setCursor s.video.textCursorX
      (if s.video.textCursorY = 0 then 2^16 - 1 else s.video.textCursorY - 1))
  else some s

/-- the `switch` of `video_putchar` -/
def BootVideModeHandler.place (handler : BootVideModeHandler) (c : UInt8) (s : Screen) : Option Screen :=
  if c = NEWLINE then some (s.setCursor 0 ((s.video.textCursorY + 1) % 2^16))
  else
    (handler.putchar c s.video.textCursorX s.video.textCursorY s).map fun s =>
      s.setCursor ((s.video.textCursorX + 1) % 2^16) s.video.textCursorY

def videoPutchar (c : UInt8) (s : Screen) : Option Screen := do
  let handler ← gVideoHandlers[s.video.mode]?
  let s ← handler.scrollLine s.wrapLine
  handler.place c s

/-- `video_putchar` of every byte -/
def videoPuts (text : List UInt8) (s : Screen) : Option Screen := text.foldlM (fun s c => videoPutchar c s) s

/-! ## the cursor -/

section
variable {s : Screen} {x y : Nat}

@[simp] theorem setCursor_cells (s : Screen) (x y : Nat) : (s.setCursor x y).cells = s.cells := rfl
@[simp] theorem setCursor_pixels (s : Screen) (x y : Nat) : (s.setCursor x y).pixels = s.pixels := rfl
@[simp] theorem setCursor_x (s : Screen) (x y : Nat) : (s.setCursor x y).video.textCursorX = x := rfl
@[simp] theorem setCursor_y (s : Screen) (x y : Nat) : (s.setCursor x y).video.textCursorY = y := rfl
@[simp] theorem setCursor_maxX (s : Screen) (x y : Nat) :
    (s.setCursor x y).video.textMaxX = s.video.textMaxX := rfl
@[simp] theorem setCursor_maxY (s : Screen) (x y : Nat) :
    (s.setCursor x y).video.textMaxY = s.video.textMaxY := rfl
@[simp] theorem setCursor_mode (s : Screen) (x y : Nat) : (s.setCursor x y).video.mode = s.video.mode := rfl
@[simp] theorem setCursor_width (s : Screen) (x y : Nat) : (s.setCursor x y).video.width = s.video.width := rfl
@[simp] theorem setCursor_height (s : Screen) (x y : Nat) :
    (s.setCursor x y).video.height = s.video.height := rfl
@[simp] theorem setCursor_pitch (s : Screen) (x y : Nat) : (s.setCursor x y).video.pitch = s.video.pitch := rfl

theorem videoPuts_cons (c : UInt8) (text : List UInt8) (s : Screen) :
    videoPuts (c :: text) s = (videoPutchar c s).bind (videoPuts text) := List.foldlM_cons

theorem videoPuts_concat (text : List UInt8) (c : UInt8) (s : Screen) :
    videoPuts (text ++ [c]) s = (videoPuts text s).bind (videoPutchar c) := by
  unfold videoPuts
  rw [List.foldlM_append]
  refine bind_congr fun s => ?_
  rw [List.foldlM_cons]
  exact bind_pure _

theorem videoPutchar_eq {handler : BootVideModeHandler} (h : gVideoHandlers[s.video.mode]? = some handler)
    (c : UInt8) : videoPutchar c s = (handler.scrollLine s.wrapLine).bind (handler.place c) := by
  unfold videoPutchar
  rw [h]
  rfl

/-! ## scrolling -/

theorem storeCell_eq {buf : List UInt16} {i : Nat} (h : i < buf.length) (v : UInt16) :
    storeCell buf i v = some (buf.set i v) := if_pos h

/-- the first loop moves cells down by `maxX` -/
theorem scrollCopy_spec (maxX i n : Nat) (buf : List UInt16) (h : i + n + maxX ≤ buf.length) :
    ∃ buf', scrollCopy maxX i n buf = some buf' ∧ buf'.length = buf.length ∧
      ∀ k, buf'[k]? = if i ≤ k ∧ k < i + n then buf[k + maxX]? else buf[k]? := by
  induction n generalizing i buf with
  | zero =>
    refine ⟨buf, rfl, rfl, fun k => ?_⟩
    rw [if_neg (by omega)]
  | succ n ih =>
    have hread : i + maxX < buf.length := by omega
    obtain ⟨buf', hbuf', hlen, hcells⟩ := ih (i + 1) (buf.set i buf[i + maxX])
      (by rw [List.length_set]; omega)
    rw [List.length_set] at hlen
    refine ⟨buf', ?_, hlen, fun k => ?_⟩
    · rw [scrollCopy, List.getElem?_eq_getElem hread, Option.bind_eq_bind, Option.bind_some,
        storeCell_eq (by omega)]
      exact hbuf'
    · rw [hcells k]
      by_cases hk : k = i
      · subst hk
        rw [if_neg (by omega), if_pos (by omega), List.getElem?_set_self (by omega),
          List.getElem?_eq_getElem hread]
      · by_cases hin : i + 1 ≤ k ∧ k < i + 1 + n
        · rw [if_pos hin, if_pos (by omega), List.getElem?_set_ne (by omega)]
        · rw [if_neg hin, if_neg (by omega), List.getElem?_set_ne (by omega)]

/-- the second loop clears cells -/
theorem scrollClear_spec (tmp i n : Nat) (buf : List UInt16) (h : tmp + i + n ≤ buf.length) :
    ∃ buf', scrollClear tmp i n buf = some buf' ∧ buf'.length = buf.length ∧
      ∀ k, buf'[k]? = if tmp + i ≤ k ∧ k < tmp + i + n then some 0 else buf[k]? := by
  induction n generalizing i buf with
  | zero =>
    refine ⟨buf, rfl, rfl, fun k => ?_⟩
    rw [if_neg (by omega)]
  | succ n ih =>
    obtain ⟨buf', hbuf', hlen, hcells⟩ := ih (i + 1) (buf.set (tmp + i) 0)
      (by rw [List.length_set]; omega)
    rw [List.length_set] at hlen
    refine ⟨buf', ?_, hlen, fun k => ?_⟩
    · rw [scrollClear, storeCell_eq (by omega)]
      exact hbuf'
    · rw [hcells k]
      by_cases hk : k = tmp + i
      · subst hk
        rw [if_neg (by omega), if_pos (by omega), List.getElem?_set_self (by omega)]
      · rw [List.getElem?_set_ne (by omega)]
        exact if_congr (by omega) rfl rfl

/-- the text buffer is as large as the screen, and `int` can count its cells -/
structure TextScreen (s : Screen) : Prop where
  maxX : 1 ≤ s.video.textMaxX ∧ s.video.textMaxX < 2^16
  maxY : 1 ≤ s.video.textMaxY ∧ s.video.textMaxY < 2^16
  cells : s.cells.length = s.video.textMaxY * s.video.textMaxX
  small : s.video.textMaxY * s.video.textMaxX < 2^31

/-- **`video_text_scroll`** moves all rows up by one and clears the last one. -/
theorem videoTextScroll_eq (h : TextScreen s) : videoTextScroll s =
    some { s with cells := s.cells.drop s.video.textMaxX ++ List.replicate s.video.textMaxX 0 } := by
  obtain ⟨tmp, htmp⟩ : ∃ tmp, tmp = s.video.textMaxX * (s.video.textMaxY - 1) := ⟨_, rfl⟩
  have hlen : tmp + s.video.textMaxX = s.cells.length := by
    rw [h.cells, htmp, Nat.mul_sub_one, Nat.mul_comm s.video.textMaxY]
    exact Nat.sub_add_cancel (Nat.le_mul_of_pos_right _ h.maxY.1)
  have hsmall := h.small
  rw [← h.cells] at hsmall
  have hprod : (s.video.textMaxX : Int) * (s.video.textMaxY - 1) = tmp := by
    rw [htmp, Int.natCast_mul, Int.natCast_sub h.maxY.1]
    rfl
  have hsize : intMul? s.video.textMaxX (s.video.textMaxY - 1) = some (tmp : Int) := by
    unfold intMul?
    rw [hprod, if_pos (by omega)]
  have hu : toU64 (tmp : Int) = tmp := toU64_natCast (by omega)
  obtain ⟨copied, hcopied, hlencopied, hatcopied⟩ :=
    scrollCopy_spec s.video.textMaxX 0 tmp s.cells (by omega)
  obtain ⟨cleared, hcleared, hlencleared, hatcleared⟩ :=
    scrollClear_spec tmp 0 s.video.textMaxX copied (by omega)
  have heq : cleared = s.cells.drop s.video.textMaxX ++ List.replicate s.video.textMaxX 0 := by
    have hdrop : (s.cells.drop s.video.textMaxX).length = tmp := by
      rw [List.length_drop]
      omega
    refine List.ext_getElem? fun k => ?_
    rw [hatcleared k, hatcopied k]
    by_cases hk : k < tmp
    · rw [if_neg (by omega), if_pos (by omega), List.getElem?_append_left (by omega), List.getElem?_drop,
        Nat.add_comm]
    · rw [List.getElem?_append_right (by omega), hdrop, List.getElem?_replicate]
      by_cases hin : k < tmp + s.video.textMaxX
      · rw [if_pos (by omega), if_pos (by omega)]
      · rw [if_neg (by omega), if_neg (by omega), if_neg (by omega), List.getElem?_eq_none (by omega)]
  unfold videoTextScroll
  rw [hsize, Option.bind_eq_bind, Option.bind_some]
  dsimp only
  rw [hu, hcopied, ← heq]
  show (scrollClear tmp 0 s.video.textMaxX copied).bind _ = _
  rw [hcleared]
  rfl

theorem TextScreen.scrolled (h : TextScreen s) : TextScreen
    { s with cells := s.cells.drop s.video.textMaxX ++ List.replicate s.video.textMaxX 0 } := by
  refine ⟨h.maxX, h.maxY, ?_, h.small⟩
  have hle : s.video.textMaxX ≤ s.cells.length := by
    rw [h.cells]
    exact Nat.le_mul_of_pos_left _ h.maxY.1
  rw [List.length_append, List.length_drop, List.length_replicate, Nat.sub_add_cancel hle]
  exact h.cells

/-- scrolling `n` times clears the last `n` rows -/
theorem scrollTimes_eq (h : TextScreen s) {n : Nat} (hn : n ≤ s.video.textMaxY) : scrollTimes n s =
    some { s with
      cells := s.cells.drop (n * s.video.textMaxX) ++ List.replicate (n * s.video.textMaxX) 0 } := by
  induction n generalizing s with
  | zero =>
    rw [Nat.zero_mul, List.drop_zero, List.replicate_zero, List.append_nil]
    rfl
  | succ n ih =>
    have hle : n * s.video.textMaxX ≤ s.cells.length - s.video.textMaxX := by
      rw [h.cells, ← Nat.sub_one_mul]
      exact Nat.mul_le_mul_right _ (by omega)
    rw [scrollTimes, videoTextScroll_eq h, Option.bind_some, ih h.scrolled (Nat.le_of_succ_le hn)]
    dsimp only
    rw [List.drop_append_of_le_length (by rw [List.length_drop]; exact hle), List.drop_drop, List.append_assoc,
      List.replicate_append_replicate, Nat.add_one_mul, Nat.add_comm s.video.textMaxX]

/-- **`video_init`** clears the screen. -/
theorem videoInit_cleared (h : s.cells.length = 2000) :
    ∃ s', videoInit s = some s' ∧ TextScreen s' ∧ s'.video.mode = VIDEO_MODE_TEXT ∧
      s'.video.textCursorX = 0 ∧ s'.video.textCursorY = 0 ∧
      s'.cells = List.replicate (s'.video.textMaxY * s'.video.textMaxX) 0 := by
  obtain ⟨t, ht⟩ : ∃ t : Screen, t = { s with video := { s.video with
    mode := VIDEO_MODE_TEXT, textCursorX := 0, textCursorY := 0, textMaxX := 80, textMaxY := 25,
    framebuffer := 0xb8000 } } := ⟨_, rfl⟩
  have hx : t.video.textMaxX = 80 := by rw [ht]
  have hy : t.video.textMaxY = 25 := by rw [ht]
  have hcells : t.cells.length = 2000 := by rw [ht, h]
  have htext : TextScreen t := by
    refine ⟨?_, ?_, ?_, ?_⟩
    · rw [hx]
      decide
    · rw [hy]
      decide
    · rw [hcells, hx, hy]
    · rw [hx, hy]
      decide
  have hscroll := scrollTimes_eq htext (Nat.le_refl _)
  rw [← htext.cells, List.drop_length, List.nil_append, htext.cells, hy] at hscroll
  refine ⟨_, Eq.trans (by rw [ht]; rfl) hscroll, ⟨htext.maxX, htext.maxY, ?_, htext.small⟩, ?_, ?_, ?_, ?_⟩
  · dsimp only
    rw [List.length_replicate, hy]
  · rw [ht]
  · rw [ht]
  · rw [ht]
  · dsimp only
    rw [hy]

/-! ## lines -/

/-- the cursor is inside, or behind the last column or behind the last row -/
structure Screen.CursorOk (s : Screen) : Prop where
  maxX : 1 ≤ s.video.textMaxX ∧ s.video.textMaxX < 2^16
  maxY : 1 ≤ s.video.textMaxY ∧ s.video.textMaxY < 2^16
  x : s.video.textCursorX ≤ s.video.textMaxX
  y : s.video.textCursorY ≤ s.video.textMaxY
  corner : s.video.textCursorX = s.video.textMaxX → s.video.textCursorY < s.video.textMaxY

theorem Screen.CursorOk.congr {s' : Screen} (h : s.CursorOk) (e : s'.video = s.video) : s'.CursorOk := by
  obtain ⟨hx, hy, hcx, hcy, hcorner⟩ := h
  refine ⟨?_, ?_, ?_, ?_, ?_⟩ <;> rw [e] <;> assumption

theorem wrapLine_spec (h : s.CursorOk) :
    s.wrapLine.CursorOk ∧ s.wrapLine.video.textCursorX < s.video.textMaxX := by
  obtain ⟨hx, hy, hcx, hcy, hcorner⟩ := h
  unfold Screen.wrapLine
  by_cases hend : s.video.textCursorX = s.video.textMaxX
  · have hlt := hcorner hend
    rw [if_pos hend]
    refine ⟨⟨hx, hy, Nat.zero_le _, ?_, fun h0 => ?_⟩, ?_⟩
    · rw [setCursor_y, setCursor_maxY]
      omega
    · rw [setCursor_x, setCursor_maxX] at h0
      omega
    · rw [setCursor_x]
      omega
  · rw [if_neg hend]
    exact ⟨⟨hx, hy, hcx, hcy, hcorner⟩, by omega⟩

end

end FuseeOS

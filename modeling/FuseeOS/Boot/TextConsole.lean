import FuseeOS.Boot.Video
import Mathlib.Data.List.Induction

/-!
# The console in text mode

The screen shows the last rows of the text.  Wrapping and scrolling wait for the next character.

* `ShowsText`              the cells and the cursor belong to the rows of a text;
* `ShowsText.wrapLine`, `ShowsText.scrollLine`, `ShowsText.newline`, `ShowsText.append`
                           what the parts of `video_putchar` do to them;
* **`text_console`**       after any text the cells are its last rows.
-/

namespace FuseeOS
open CInt Terminal

/-- The screen shows `shown`: all rows of `r`, or, behind a newline, those above an empty row.  The cursor is
behind the last character, in the row below the screen if there is no room for it. -/
structure ShowsText (w n : Nat) (s : Screen) (r : Rows UInt8) (shown : List (List UInt8)) : Prop where
  mode : s.video.mode = VIDEO_MODE_TEXT
  text : TextScreen s
  maxX : s.video.textMaxX = w
  maxY : s.video.textMaxY = n
  fits : r.Fits w
  rows : shown = r.all ∨ (shown = r.above ∧ r.row = [])
  cells : s.cells = renderRows textCell 0 w n shown
  x : s.video.textCursorX = r.row.length
  y : s.video.textCursorY = r.above.length - (shown.length - n)

section
variable {w n : Nat} {s : Screen} {r : Rows UInt8} {shown : List (List UInt8)}

theorem length_all (r : Rows UInt8) : r.all.length = r.above.length + 1 := by
  unfold Rows.all
  rw [List.length_append, List.length_singleton]

theorem TextScreen.setCursor (h : TextScreen s) (x y : Nat) : TextScreen (s.setCursor x y) :=
  ⟨h.maxX, h.maxY, h.cells, h.small⟩

theorem ShowsText.bounds (h : ShowsText w n s r shown) :
    (1 ≤ w ∧ w < 2^16) ∧ 1 ≤ n ∧ n < 2^16 := by
  have hX := h.text.maxX
  have hY := h.text.maxY
  rw [h.maxX] at hX
  rw [h.maxY] at hY
  exact ⟨hX, hY⟩

/-- a full row is finished; the screen stays as it is -/
theorem ShowsText.wrapLine (h : ShowsText w n s r shown) : ShowsText w n s.wrapLine (r.wrap w) shown := by
  obtain ⟨hmaxX, hmaxY⟩ := h.bounds
  unfold Screen.wrapLine Rows.wrap
  rw [h.x, h.maxX]
  by_cases hfull : r.row.length = w
  · rw [if_pos hfull, if_pos hfull]
    -- a full row is not empty, so that it is on the screen
    have hall : shown = r.all := by
      rcases h.rows with hall | ⟨-, hnil⟩
      · exact hall
      · rw [hnil, List.length_nil] at hfull
        omega
    have hy := h.y
    rw [hall, length_all] at hy
    refine ⟨h.mode, h.text.setCursor _ _, h.maxX, h.maxY, h.fits.newRow, Or.inr ⟨hall, rfl⟩, h.cells, rfl, ?_⟩
    rw [setCursor_y, hall, Rows.newRow_above, length_all, List.length_append, List.length_singleton, hy]
    omega
  · rw [if_neg hfull, if_neg hfull]
    exact h

/-- a row that the last newline opened comes into the screen -/
theorem ShowsText.scrollLine (h : ShowsText w n s r shown) :
    ∃ s', (BootVideModeHandler.mk videoTextPutchar videoTextScroll).scrollLine s = some s' ∧
      ShowsText w n s' r r.all := by
  obtain ⟨-, hmaxY⟩ := h.bounds
  have hy := h.y
  unfold BootVideModeHandler.scrollLine
  rcases h.rows with hall | ⟨habove, hrow⟩
  · -- all rows are shown already
    rw [hall, length_all] at hy
    rw [h.maxY, if_neg (by omega)]
    exact ⟨s, rfl, hall ▸ h⟩
  · have hnew : r.all = r.above ++ [[]] := by
      unfold Rows.all
      rw [hrow]
    have hcells := h.cells
    rw [habove] at hcells hy
    rw [h.maxY]
    by_cases hend : s.video.textCursorY = n
    · rw [if_pos hend, if_neg (by omega)]
      have hscroll : renderRows textCell 0 w n (r.above ++ [[]]) =
          (renderRows textCell 0 w n r.above).drop w ++ List.replicate w 0 :=
        renderRows_scroll (by omega) hmaxY.1 h.fits.above
      have htext := h.text.setCursor s.video.textCursorX (s.video.textCursorY - 1)
      refine ⟨_, videoTextScroll_eq htext, h.mode, htext.scrolled, h.maxX, h.maxY, h.fits, Or.inl rfl,
        ?_, h.x, ?_⟩
      · rw [hnew, hscroll, ← hcells, setCursor_maxX, setCursor_cells, h.maxX]
      · rw [length_all]
        show s.video.textCursorY - 1 = _
        omega
    · rw [if_neg hend]
      have hroom : r.above.length < n := by omega
      refine ⟨s, rfl, h.mode, h.text, h.maxX, h.maxY, h.fits, Or.inl rfl, ?_, h.x, ?_⟩
      · rw [hnew, renderRows_newRow hroom]
        exact hcells
      · rw [length_all]
        omega

/-- the cell of the cursor -/
theorem videoTextPutchar_eq (h : TextScreen s) {x y : Nat} (hin : y * s.video.textMaxX + x < s.cells.length)
    (c : UInt8) : videoTextPutchar c x y s =
      some { s with cells := s.cells.set (y * s.video.textMaxX + x) (textCell c) } := by
  have hsmall := h.small
  rw [← h.cells] at hsmall
  have hline : intMul? y s.video.textMaxX = some ((y * s.video.textMaxX : Nat) : Int) := by
    unfold intMul?
    rw [← Int.natCast_mul, if_pos (by omega)]
  have hsum : intAdd? ((y * s.video.textMaxX : Nat) : Int) x = some ((y * s.video.textMaxX + x : Nat) : Int) := by
    unfold intAdd?
    rw [← Int.natCast_add, if_pos (by omega)]
  unfold videoTextPutchar
  rw [hline, Option.bind_eq_bind, Option.bind_some, hsum]
  show (storeCell s.cells (((y * s.video.textMaxX + x : Nat) : Int).toNat) (textCell c)).bind _ = _
  rw [Int.toNat_natCast, storeCell_eq hin]
  rfl

/-- a newline finishes the row -/
theorem ShowsText.newline (h : ShowsText w n s r r.all) :
    ShowsText w n (s.setCursor 0 ((s.video.textCursorY + 1) % 2^16)) r.newRow r.newRow.above := by
  obtain ⟨-, hmaxY⟩ := h.bounds
  have hy := h.y
  rw [length_all] at hy
  refine ⟨h.mode, h.text.setCursor _ _, h.maxX, h.maxY, h.fits.newRow, Or.inr ⟨rfl, rfl⟩, h.cells, rfl, ?_⟩
  rw [setCursor_y, Rows.newRow_above, List.length_append, List.length_singleton]
  omega

/-- a character is placed in a row with room for it -/
theorem ShowsText.append (h : ShowsText w n s r r.all) (hroom : r.row.length < w) (c : UInt8) :
    ∃ s', videoTextPutchar c s.video.textCursorX s.video.textCursorY s = some s' ∧
      ShowsText w n (s'.setCursor ((s'.video.textCursorX + 1) % 2^16) s'.video.textCursorY) (r.append c)
        (r.append c).all := by
  obtain ⟨hmaxX, hmaxY⟩ := h.bounds
  have hx := h.x
  have hy := h.y
  rw [length_all] at hy
  -- the row of the cursor is the last one of the screen, or the last one of the text
  have hline : s.video.textCursorY < n := by omega
  have hin : s.video.textCursorY * w + s.video.textCursorX < s.cells.length := by
    rw [h.text.cells, h.maxX, h.maxY, hx]
    calc s.video.textCursorY * w + r.row.length
        < s.video.textCursorY * w + w := Nat.add_lt_add_left hroom _
      _ = (s.video.textCursorY + 1) * w := (Nat.add_one_mul _ _).symm
      _ ≤ n * w := Nat.mul_le_mul_right _ hline
  have hsnoc : renderRows textCell 0 w n (r.above ++ [r.row ++ [c]]) =
      (renderRows textCell 0 w n (r.above ++ [r.row])).set
        ((r.above.length - (r.above.length + 1 - n)) * w + r.row.length) (textCell c) :=
    renderRows_snoc h.fits.above hroom hmaxY.1 c
  have hsucc : (s.video.textCursorX + 1) % 2^16 = s.video.textCursorX + 1 := by omega
  have hput := videoTextPutchar_eq h.text (h.maxX.symm ▸ hin) c
  rw [h.maxX] at hput
  refine ⟨_, hput, h.mode, ⟨h.text.maxX, h.text.maxY, ?_, h.text.small⟩, h.maxX, h.maxY,
    h.fits.append hroom c, Or.inl rfl, ?_, ?_, ?_⟩
  · rw [setCursor_cells, List.length_set]
    exact h.text.cells
  · have hcells := h.cells
    unfold Rows.all at hcells ⊢
    rw [setCursor_cells, Rows.append_above, Rows.append_row, hsnoc, ← hcells, hx, hy]
  · rw [setCursor_x, Rows.append_row, List.length_append, List.length_singleton]
    show (s.video.textCursorX + 1) % 2^16 = _
    rw [hsucc, hx]
  · rw [setCursor_y, length_all, Rows.append_above]
    exact hy

/-- **One character**, with the rows that are shown then. -/
theorem ShowsText.putchar (h : ShowsText w n s r shown) (c : UInt8) :
    ∃ s', videoPutchar c s = some s' ∧
      ShowsText w n s' (r.feed w NEWLINE c)
        (if c = NEWLINE then (r.feed w NEWLINE c).above else (r.feed w NEWLINE c).all) := by
  have hhandler : gVideoHandlers[s.video.mode]? = some ⟨videoTextPutchar, videoTextScroll⟩ := by
    rw [h.mode]
    rfl
  have hroom := (fits_wrap h.fits h.bounds.1.1).2
  obtain ⟨t, ht, hall⟩ := h.wrapLine.scrollLine
  rw [videoPutchar_eq hhandler, ht, Option.bind_some]
  unfold BootVideModeHandler.place Rows.feed
  by_cases hnl : c = NEWLINE
  · rw [if_pos hnl, if_pos hnl, if_pos hnl]
    exact ⟨_, rfl, hall.newline⟩
  · obtain ⟨s', hs', happend⟩ := hall.append hroom c
    rw [if_neg hnl, if_neg hnl, if_neg hnl]
    exact ⟨_, congrArg (Option.map _) hs', happend⟩

/-- the screen is cleared, and the cursor at the origin -/
structure ClearedText (s : Screen) : Prop where
  mode : s.video.mode = VIDEO_MODE_TEXT
  maxX : 1 ≤ s.video.textMaxX ∧ s.video.textMaxX < 2^16
  maxY : 1 ≤ s.video.textMaxY ∧ s.video.textMaxY < 2^16
  small : s.video.textMaxY * s.video.textMaxX < 2^31
  cells : s.cells = List.replicate (s.video.textMaxY * s.video.textMaxX) 0
  x : s.video.textCursorX = 0
  y : s.video.textCursorY = 0

/-- **The text console**: after any text, no access was outside of the buffer, and the buffer shows the last
rows of the text. -/
theorem text_console (h : ClearedText s) (text : List UInt8) :
    ∃ s', videoPuts text s = some s' ∧ s'.cells =
      renderRows textCell 0 s.video.textMaxX s.video.textMaxY (displayed s.video.textMaxX NEWLINE text) := by
  have htext : TextScreen s := ⟨h.maxX, h.maxY, by rw [h.cells, List.length_replicate], h.small⟩
  have key : ∀ text, ∃ s', videoPuts text s = some s' ∧
      ShowsText s.video.textMaxX s.video.textMaxY s' (rowsOf s.video.textMaxX NEWLINE text)
        (displayed s.video.textMaxX NEWLINE text) := by
    intro text
    induction text using List.reverseRecOn with
    | nil =>
      have hnil : renderRows textCell 0 s.video.textMaxX s.video.textMaxY ([] ++ [[]]) =
          List.replicate (s.video.textMaxY * s.video.textMaxX) 0 := by
        rw [renderRows_newRow h.maxY.1, renderRows_nil]
      refine ⟨s, rfl, h.mode, htext, rfl, rfl, ⟨fun row hrow => absurd hrow List.not_mem_nil, Nat.zero_le _⟩,
        Or.inl rfl, h.cells.trans hnil.symm, h.x, h.y.trans ?_⟩
      exact (Nat.zero_sub _).symm
    | append_singleton text c ih =>
      obtain ⟨s₁, hs₁, hshows⟩ := ih
      obtain ⟨s', hs', hshows'⟩ := hshows.putchar c
      refine ⟨s', ?_, ?_⟩
      · rw [videoPuts_concat, hs₁, Option.bind_some, hs']
      · unfold displayed
        rw [rowsOf_concat, List.getLast?_concat]
        simpa only [Option.some.injEq] using hshows'
  obtain ⟨s', hs', hshows⟩ := key text
  exact ⟨s', hs', hshows.cells⟩

end

/-- three columns and two rows -/
def smallScreen : Screen := ⟨⟨0, 0, 0, 0, 0, 0, 0, 3, 2, 0xb8000⟩, List.replicate 6 0, []⟩

/-- `"abc\n\nd"`: a newline behind a full row leaves an empty one -/
theorem text_console_small : ∃ s', videoPuts [97, 98, 99, 10, 10, 100] smallScreen = some s' ∧
    s'.cells = renderRows textCell 0 3 2 (displayed 3 NEWLINE [97, 98, 99, 10, 10, 100]) :=
  text_console ⟨rfl, by decide, by decide, by decide, rfl, rfl, rfl⟩ _

end FuseeOS

import Mathlib.Algebra.BigOperators.Group.List.Basic
import Mathlib.Algebra.Order.Archimedean.Basic
import Mathlib.Algebra.Order.BigOperators.Group.List
import Mathlib.Algebra.Order.Field.Rat
import Mathlib.Data.Rat.Floor
import Mathlib.Tactic.FieldSimp
import Mathlib.Tactic.Linarith
import SatAllocatorTest.Verified.Loops

/-!
# Labels cut to a width

`trimTextRight` of `GraphicLayout2D.tsx`: the longest beginning of a text that fits in a
width with an ellipsis behind it.  Texts are sequences of code units, and numbers are
exact.  The context measures a text in its font; `measureTextWidth` adds up the characters
and keeps every width it has seen, of characters and of texts, in one table for each font.

The search interpolates between a length that fits and one that does not.  The width that
belongs to `r` is that of `r + 1` after a step, and that of `l` is zero at first, but the
one is above `maxWidth` and the other is not, which is all that the next guess needs: it
lies above `l`, and not above `r`.

Main result: `trimTextRight_longest`.
-/

namespace SatAllocatorTest.Ports.Monitor.TrimText

open SatAllocatorTest.Verified.Loops

/-- A string: its code units. -/
abbrev Text := List UInt16

/-- `'\u2026'`. -/
def ellipsis : UInt16 := 0x2026

/-- The widths of one font that have been kept. -/
abbrev Widths := Text → Option ℚ

/-- `textWidthCache`. -/
abbrev Cache := String → Option Widths

/-- `const textWidthCache = {}`. -/
def noCache : Cache := fun _ => none

/-- `const maxTextMeasureCacheLength = 200`. -/
def maxTextMeasureCacheLength : ℕ := 200

section

variable (measureText : (font : String) → Text → ℚ)

/-- The body of the loop over the characters of a text. -/
def addChar (font : String) (s : ℚ × Widths) (char : UInt16) : ℚ × Widths :=
  match s.2 [char] with
  | some charWidth => (s.1 + charWidth, s.2)
  | none =>
    let charWidth := measureText font [char]
    (s.1 + charWidth, Function.update s.2 [char] (some charWidth))

/-- `measureTextWidth(context, text)`, and the cache it leaves. -/
def measureTextWidth (font : String) (text : Text) (cache : Cache) : ℚ × Cache :=
  if maxTextMeasureCacheLength < text.length then (measureText font text, cache)
  else
    let textWidths := (cache font).getD fun _ => none
    match textWidths text with
    | some width => (width, Function.update cache font (some textWidths))
    | none =>
      let (width, textWidths) := text.foldl (addChar measureText font) (0, textWidths)
      (width, Function.update cache font (some (Function.update textWidths text (some width))))

/-- The cache after some texts have been measured. -/
def measured (calls : List (String × Text)) : Cache :=
  calls.foldl (fun cache call => (measureTextWidth measureText call.1 call.2 cache).2) noCache

end

/-- `trimFunction(text, maxLength)`; `substr` takes nothing where its length is negative. -/
def trimFunction (text : Text) (maxLength : ℤ) : Text :=
  if text.length ≤ maxLength then text
  else text.take (maxLength - 3).toNat ++ [ellipsis]

/-- The variables of the search. -/
structure Search where
  l : ℤ
  r : ℤ
  lv : ℚ
  rv : ℚ
  cache : Cache

section

variable (measureText : (font : String) → Text → ℚ) (font : String) (text : Text) (maxWidth : ℚ)

/-- `l < r && lv !== rv && lv !== maxWidth`. -/
def goesOn (s : Search) : Bool := s.l < s.r ∧ s.lv ≠ s.rv ∧ s.lv ≠ maxWidth

/-- The next length to try. -/
def guess (s : Search) : ℤ := ⌈s.l + (s.r - s.l) * (maxWidth - s.lv) / (s.rv - s.lv)⌉

/-- The body of the loop. -/
def turn (s : Search) : Search :=
  let m := guess maxWidth s
  let (mv, cache) := measureTextWidth measureText font (trimFunction text m) s.cache
  if mv ≤ maxWidth then { s with l := m, lv := mv, cache := cache }
  else { s with r := m - 1, rv := mv, cache := cache }

/-- `text !== '\u2026' ? text : ''`. -/
def orEmpty (text : Text) : Text := if text ≠ [ellipsis] then text else []

/-- `const maxLength = 200`. -/
def maxLength : ℤ := 200

/-- The text that is searched. -/
def shortened (text : Text) : Text :=
  if maxLength < text.length then trimFunction text maxLength else text

/-- `trimTextRight(context, text, maxWidth)`, if its loop ends within `fuel` tests, and the
cache it leaves. -/
def trimTextRight (fuel : ℕ) (cache : Cache) : Option (Text × Cache) :=
  if maxWidth ≤ 10 then some ([], cache)
  else
    let text := shortened text
    let (textWidth, cache) := measureTextWidth measureText font text cache
    if textWidth ≤ maxWidth then some (text, cache)
    else
      (whileLoop (goesOn maxWidth) (turn measureText font text maxWidth) fuel
          ⟨0, text.length, 0, textWidth, cache⟩).map fun s =>
        (orEmpty (trimFunction text s.l), s.cache)

end

/-! ## Widths -/

section

variable {measureText : (font : String) → Text → ℚ} {font : String}

/-- The sum of the widths of the characters. -/
def total (measureText : (font : String) → Text → ℚ) (font : String) (text : Text) : ℚ :=
  (text.map fun char => measureText font [char]).sum

theorem total_cons (char : UInt16) (text : Text) :
    total measureText font (char :: text) =
      measureText font [char] + total measureText font text := List.sum_cons

theorem total_append (a b : Text) :
    total measureText font (a ++ b) = total measureText font a + total measureText font b := by
  rw [total, List.map_append, List.sum_append]
  rfl

theorem total_singleton (char : UInt16) :
    total measureText font [char] = measureText font [char] := by
  simp [total]

theorem total_nonneg (hpos : ∀ char, 0 < measureText font [char]) (text : Text) :
    0 ≤ total measureText font text := by
  apply List.sum_nonneg
  intro width hwidth
  obtain ⟨char, -, rfl⟩ := List.mem_map.1 hwidth
  exact (hpos char).le

theorem total_pos (hpos : ∀ char, 0 < measureText font [char]) {text : Text} (htext : text ≠ []) :
    0 < total measureText font text := by
  cases text with
  | nil => exact absurd rfl htext
  | cons char text =>
      rw [total_cons]
      exact add_pos_of_pos_of_nonneg (hpos char) (total_nonneg hpos text)

/-! ## The cache -/

/-- Every width that has been kept is the width of its text. -/
def Widths.Exact (measureText : (font : String) → Text → ℚ) (font : String) (widths : Widths) :
    Prop := ∀ text width, widths text = some width → width = total measureText font text

/-- The same of all fonts. -/
def Cache.Exact (measureText : (font : String) → Text → ℚ) (cache : Cache) : Prop :=
  ∀ font widths, cache font = some widths → widths.Exact measureText font

theorem Widths.Exact.update {widths : Widths} (h : widths.Exact measureText font) (text : Text) :
    Widths.Exact measureText font
      (Function.update widths text (some (total measureText font text))) := by
  intro text' width hwidth
  by_cases heq : text' = text
  · subst heq
    rw [Function.update_self] at hwidth
    exact (Option.some.inj hwidth).symm
  · rw [Function.update_of_ne heq] at hwidth
    exact h text' width hwidth

theorem Cache.Exact.update {cache : Cache} (h : cache.Exact measureText) {widths : Widths}
    (hwidths : widths.Exact measureText font) :
    Cache.Exact measureText (Function.update cache font (some widths)) := by
  intro font' widths' hfont
  by_cases heq : font' = font
  · subst heq
    rw [Function.update_self] at hfont
    exact Option.some.inj hfont ▸ hwidths
  · rw [Function.update_of_ne heq] at hfont
    exact h font' widths' hfont

theorem addChar_spec {s : ℚ × Widths} (h : s.2.Exact measureText font) (char : UInt16) :
    (addChar measureText font s char).1 = s.1 + measureText font [char] ∧
      (addChar measureText font s char).2.Exact measureText font := by
  unfold addChar
  cases hchar : s.2 [char] with
  | some charWidth =>
      have heq := h [char] charWidth hchar
      rw [total_singleton] at heq
      exact ⟨by rw [heq], h⟩
  | none =>
      have hupdate := h.update [char]
      rw [total_singleton] at hupdate
      exact ⟨rfl, hupdate⟩

theorem foldl_addChar_spec : ∀ (text : Text) {s : ℚ × Widths}, s.2.Exact measureText font →
    (text.foldl (addChar measureText font) s).1 = s.1 + total measureText font text ∧
      (text.foldl (addChar measureText font) s).2.Exact measureText font := by
  intro text
  induction text with
  | nil => exact fun h => ⟨by simp [total], h⟩
  | cons char text ih =>
      intro s h
      obtain ⟨hsum, hexact⟩ := addChar_spec h char
      obtain ⟨hsum', hexact'⟩ := ih hexact
      refine ⟨?_, hexact'⟩
      rw [List.foldl_cons, hsum', hsum, add_assoc, ← total_cons]

/-- The cache is transparent: a text short enough for it is measured by its characters, and
no width that is kept is another. -/
theorem measureTextWidth_spec (font : String) {cache : Cache} (h : cache.Exact measureText)
    (text : Text) :
    (text.length ≤ maxTextMeasureCacheLength →
      (measureTextWidth measureText font text cache).1 = total measureText font text) ∧
    (measureTextWidth measureText font text cache).2.Exact measureText := by
  unfold measureTextWidth
  split
  · rename_i hlong
    exact ⟨fun hshort => absurd hshort (not_le.2 hlong), h⟩
  · have hwidths : Widths.Exact measureText font ((cache font).getD fun _ => none) := by
      cases hfont : cache font with
      | none =>
          intro text width hwidth
          cases hwidth
      | some widths => exact h font widths hfont
    simp only
    generalize (cache font).getD (fun _ => none) = widths at hwidths
    cases hwidth : widths text with
    | some width => exact ⟨fun _ => hwidths text width hwidth, h.update hwidths⟩
    | none =>
        obtain ⟨hsum, hexact⟩ := foldl_addChar_spec text (s := (0, widths)) hwidths
        rw [zero_add] at hsum
        refine ⟨fun _ => hsum, h.update ?_⟩
        rw [hsum]
        exact hexact.update text

theorem measured_exact (measureText : (font : String) → Text → ℚ)
    (calls : List (String × Text)) : (measured measureText calls).Exact measureText := by
  have hfold : ∀ (calls : List (String × Text)) (cache : Cache), cache.Exact measureText →
      Cache.Exact measureText (calls.foldl
        (fun cache call => (measureTextWidth measureText call.1 call.2 cache).2) cache) := by
    intro calls
    induction calls with
    | nil => exact fun _ h => h
    | cons call calls ih => exact fun cache h => ih _ (measureTextWidth_spec call.1 h call.2).2
  refine hfold calls noCache fun font widths hfont => ?_
  cases hfont

end

/-! ## The candidates -/

section

variable {measureText : (font : String) → Text → ℚ} {font : String} {t : Text} {maxWidth : ℚ}

/-- The width of the text cut to a length. -/
def widthAt (measureText : (font : String) → Text → ℚ) (font : String) (t : Text) (m : ℤ) : ℚ :=
  total measureText font (trimFunction t m)

theorem trimFunction_of_le {m : ℤ} (h : t.length ≤ m) : trimFunction t m = t := if_pos h

theorem trimFunction_of_lt {m : ℤ} (h : m < t.length) :
    trimFunction t m = t.take (m - 3).toNat ++ [ellipsis] := if_neg (not_le.2 h)

/-- Up to the length of an ellipsis and two characters there is only the ellipsis. -/
theorem trimFunction_of_le_three {m : ℤ} (h : m < t.length) (hm : m ≤ 3) :
    trimFunction t m = [ellipsis] := by
  have hzero : (m - 3).toNat = 0 := Int.toNat_of_nonpos (by omega)
  rw [trimFunction_of_lt h, hzero]
  rfl

theorem length_trimFunction {m : ℤ} (h : m < t.length) :
    (trimFunction t m).length = (m - 3).toNat + 1 := by
  rw [trimFunction_of_lt h, List.length_append, List.length_take, List.length_singleton]
  omega

theorem length_trimFunction_le (ht : t ≠ []) (m : ℤ) : (trimFunction t m).length ≤ t.length := by
  have hpos := List.length_pos_of_ne_nil ht
  by_cases h : m < t.length
  · rw [length_trimFunction h]
    omega
  · rw [trimFunction_of_le (not_lt.1 h)]

/-- Between two cuts of the text lie the characters the shorter one leaves out. -/
theorem widthAt_eq_add {m m' : ℤ} (hle : m ≤ m') (hlt : m' < t.length) :
    widthAt measureText font t m' = widthAt measureText font t m +
      total measureText font ((t.drop (m - 3).toNat).take ((m' - 3).toNat - (m - 3).toNat)) := by
  have hsplit : t.take (m' - 3).toNat =
      t.take (m - 3).toNat ++ (t.drop (m - 3).toNat).take ((m' - 3).toNat - (m - 3).toNat) := by
    rw [← List.take_add]
    congr 1
    omega
  rw [widthAt, widthAt, trimFunction_of_lt (hle.trans_lt hlt), trimFunction_of_lt hlt, hsplit,
    total_append, total_append, total_append]
  ring

/-- A longer cut is at least as wide. -/
theorem widthAt_mono (hpos : ∀ char, 0 < measureText font [char]) {m m' : ℤ} (hle : m ≤ m')
    (hlt : m' < t.length) : widthAt measureText font t m ≤ widthAt measureText font t m' := by
  rw [widthAt_eq_add hle hlt]
  exact le_add_of_nonneg_right (total_nonneg hpos _)

/-- Where characters are left of the text, a longer cut is wider. -/
theorem widthAt_strictMono (hpos : ∀ char, 0 < measureText font [char]) {m m' : ℤ}
    (hm : 3 ≤ m) (hlt : m < m') (hlt' : m' < t.length) :
    widthAt measureText font t m < widthAt measureText font t m' := by
  have hne : (t.drop (m - 3).toNat).take ((m' - 3).toNat - (m - 3).toNat) ≠ [] := by
    intro hnil
    have hlen := congrArg List.length hnil
    rw [List.length_take, List.length_drop, List.length_nil] at hlen
    omega
  rw [widthAt_eq_add hlt.le hlt']
  exact lt_add_of_pos_right _ (total_pos hpos hne)

/-- The text cut to `m` is a candidate that fits. -/
structure Fits (measureText : (font : String) → Text → ℚ) (font : String) (t : Text)
    (maxWidth : ℚ) (m : ℤ) : Prop where
  nonneg : 0 ≤ m
  le_length : m ≤ t.length
  width_le : widthAt measureText font t m ≤ maxWidth

/-- Of the candidates that fit, the text cut to `m` is the longest. -/
structure IsLongest (measureText : (font : String) → Text → ℚ) (font : String) (t : Text)
    (maxWidth : ℚ) (m : ℤ) : Prop where
  fits : Fits measureText font t maxWidth m
  longest : ∀ m', Fits measureText font t maxWidth m' → trimFunction t m' = trimFunction t m ∨
    (trimFunction t m').length < (trimFunction t m).length

/-- The result is the longest candidate that fits; empty for a bare ellipsis and for want
of one. -/
def Chosen (measureText : (font : String) → Text → ℚ) (font : String) (t : Text)
    (maxWidth : ℚ) (result : Text) : Prop :=
  (∃ m, IsLongest measureText font t maxWidth m ∧ result = orEmpty (trimFunction t m)) ∨
    ((∀ m, ¬Fits measureText font t maxWidth m) ∧ result = [])

/-! ## The search -/

/-- What the search knows: `l` fits or is zero, nothing above `r` fits, and `maxWidth` is
between the two widths. -/
structure Bracket (measureText : (font : String) → Text → ℚ) (font : String) (t : Text)
    (maxWidth : ℚ) (s : Search) : Prop where
  l_nonneg : 0 ≤ s.l
  l_le_r : s.l ≤ s.r
  r_le_length : s.r ≤ t.length
  below : (s.l = 0 ∧ s.lv = 0) ∨ (s.lv = widthAt measureText font t s.l ∧ s.lv ≤ maxWidth)
  rv_gt : maxWidth < s.rv
  above : ∀ m, s.r < m → m ≤ t.length → maxWidth < widthAt measureText font t m
  exact : s.cache.Exact measureText

theorem Bracket.lv_le {s : Search} (h : Bracket measureText font t maxWidth s)
    (hmax : 0 ≤ maxWidth) : s.lv ≤ maxWidth := by
  rcases h.below with ⟨-, hlv⟩ | ⟨-, hlv⟩
  · rw [hlv]
    exact hmax
  · exact hlv

/-- The next length is above `l` and not above `r`. -/
theorem Bracket.guess_bounds {s : Search} (h : Bracket measureText font t maxWidth s)
    (hmax : 0 ≤ maxWidth) (hgo : goesOn maxWidth s = true) :
    s.l < guess maxWidth s ∧ guess maxWidth s ≤ s.r := by
  have hgo := of_decide_eq_true hgo
  have hroom : (0 : ℚ) < s.r - s.l := sub_pos.2 (by exact_mod_cast hgo.1)
  have hlow : 0 < maxWidth - s.lv := sub_pos.2 (lt_of_le_of_ne (h.lv_le hmax) hgo.2.2)
  have hwide : maxWidth - s.lv < s.rv - s.lv := sub_lt_sub_right h.rv_gt _
  have hspan : 0 < s.rv - s.lv := hlow.trans hwide
  constructor
  · apply Int.lt_ceil.2
    have hpart : 0 < (s.r - s.l) * (maxWidth - s.lv) / (s.rv - s.lv) :=
      div_pos (mul_pos hroom hlow) hspan
    linarith
  · apply Int.ceil_le.2
    have hpart : (s.r - s.l) * (maxWidth - s.lv) / (s.rv - s.lv) ≤ (s.r : ℚ) - s.l := by
      rw [div_le_iff₀ hspan]
      exact mul_le_mul_of_nonneg_left hwide.le hroom.le
    linarith

/-- From a length that does not fit on, none does. -/
theorem above_of_not_fits (hpos : ∀ char, 0 < measureText font [char])
    (htotal : maxWidth < total measureText font t) {m : ℤ}
    (hm : maxWidth < widthAt measureText font t m) :
    ∀ m', m ≤ m' → m' ≤ t.length → maxWidth < widthAt measureText font t m' := by
  intro m' hle hlen
  rcases hlen.lt_or_eq with hlt | heq
  · exact hm.trans_le (widthAt_mono hpos hle hlt)
  · rw [widthAt, trimFunction_of_le heq.ge]
    exact htotal

/-- One turn keeps the bracket and makes it smaller. -/
theorem Bracket.turn {s : Search} (h : Bracket measureText font t maxWidth s)
    (hpos : ∀ char, 0 < measureText font [char]) (hmax : 0 ≤ maxWidth)
    (htotal : maxWidth < total measureText font t) (ht : t ≠ [])
    (hlen : t.length ≤ maxTextMeasureCacheLength) (hgo : goesOn maxWidth s = true) :
    Bracket measureText font t maxWidth (turn measureText font t maxWidth s) ∧
      ((TrimText.turn measureText font t maxWidth s).r -
        (TrimText.turn measureText font t maxWidth s).l).toNat < (s.r - s.l).toNat := by
  obtain ⟨hlow, hhigh⟩ := h.guess_bounds hmax hgo
  obtain ⟨hmeasure, hexact⟩ := measureTextWidth_spec font h.exact
    (trimFunction t (guess maxWidth s))
  have hmeasure := hmeasure ((length_trimFunction_le ht _).trans hlen)
  simp only [TrimText.turn]
  generalize guess maxWidth s = m at hlow hhigh hmeasure hexact ⊢
  generalize measureTextWidth measureText font (trimFunction t m) s.cache = result
    at hmeasure hexact ⊢
  have hnonneg := h.l_nonneg
  have hle := h.l_le_r
  have hr := h.r_le_length
  split
  · rename_i hfits
    have hsmaller : (s.r - m).toNat < (s.r - s.l).toNat := by omega
    exact ⟨⟨hnonneg.trans hlow.le, hhigh, hr, .inr ⟨hmeasure, hfits⟩, h.rv_gt, h.above, hexact⟩,
      hsmaller⟩
  · rename_i hwide
    have hwide := not_le.1 hwide
    have hm : maxWidth < widthAt measureText font t m := by
      rw [widthAt, ← hmeasure]
      exact hwide
    have habove := above_of_not_fits hpos htotal hm
    have hsmaller : (m - 1 - s.l).toNat < (s.r - s.l).toNat := by omega
    exact ⟨⟨hnonneg, Int.le_sub_one_of_lt hlow, (Int.sub_one_lt_of_le hhigh).le.trans hr, h.below,
        hwide, fun m' hm' => habove m' (Int.le_of_sub_one_lt hm'), hexact⟩, hsmaller⟩

/-- A text that fits is shorter than the one that does not. -/
theorem Fits.lt_length (htotal : maxWidth < total measureText font t) {m : ℤ}
    (h : Fits measureText font t maxWidth m) : m < t.length := by
  rcases h.le_length.lt_or_eq with hlt | heq
  · exact hlt
  · have hwidth := h.width_le
    rw [widthAt, trimFunction_of_le heq.ge] at hwidth
    exact absurd htotal (not_lt.2 hwidth)

/-- A candidate that is as wide as `maxWidth` loses no longer one. -/
theorem eq_of_fits_of_width_eq (hpos : ∀ char, 0 < measureText font [char])
    (htotal : maxWidth < total measureText font t) {l m : ℤ}
    (hwidth : widthAt measureText font t l = maxWidth) (hlt : l < m)
    (hm : Fits measureText font t maxWidth m) : trimFunction t m = trimFunction t l := by
  have hm' := hm.lt_length htotal
  by_cases hthree : m ≤ 3
  · rw [trimFunction_of_le_three hm' hthree, trimFunction_of_le_three (hlt.trans hm') (by omega)]
  · -- beyond three a longer cut is wider, and up to three they are all the same
    have hlower : widthAt measureText font t l = widthAt measureText font t (max l 3) := by
      rcases le_total l 3 with hl | hl
      · rw [max_eq_right hl, widthAt, widthAt, trimFunction_of_le_three (hlt.trans hm') hl,
          trimFunction_of_le_three (by omega) (le_refl _)]
      · rw [max_eq_left hl]
    have hstrict := widthAt_strictMono hpos (le_max_right l 3) (by omega : max l 3 < m) hm'
    rw [← hlower, hwidth] at hstrict
    exact absurd hm.width_le (not_le.2 hstrict)

/-- When the search ends, no candidate above `l` is another than that at `l`. -/
theorem Bracket.eq_of_fits {s : Search} (h : Bracket measureText font t maxWidth s)
    (hpos : ∀ char, 0 < measureText font [char]) (hmax : 0 < maxWidth)
    (htotal : maxWidth < total measureText font t) (hstop : goesOn maxWidth s = false) {m : ℤ}
    (hlt : s.l < m) (hm : Fits measureText font t maxWidth m) :
    trimFunction t m = trimFunction t s.l := by
  have hne : s.lv ≠ s.rv := ((h.lv_le hmax.le).trans_lt h.rv_gt).ne
  have hstop := of_decide_eq_false hstop
  by_cases hroom : s.l < s.r
  · have hlv : s.lv = maxWidth := by
      by_contra hlv
      exact hstop ⟨hroom, hne, hlv⟩
    rcases h.below with ⟨-, hzero⟩ | ⟨hwidth, -⟩
    · exact absurd (hzero.symm.trans hlv) hmax.ne
    · exact eq_of_fits_of_width_eq hpos htotal (hwidth.symm.trans hlv) hlt hm
  · have habove := h.above m (by omega) hm.le_length
    exact absurd hm.width_le (not_le.2 habove)

/-- When the search ends, `l` is the answer. -/
theorem Bracket.chosen {s : Search} (h : Bracket measureText font t maxWidth s)
    (hpos : ∀ char, 0 < measureText font [char]) (hmax : 0 < maxWidth)
    (htotal : maxWidth < total measureText font t) (ht : t ≠ [])
    (hstop : goesOn maxWidth s = false) :
    Chosen measureText font t maxWidth (orEmpty (trimFunction t s.l)) := by
  have hsame : ∀ m, s.l < m → Fits measureText font t maxWidth m →
      trimFunction t m = trimFunction t s.l := fun m hlt hm =>
    h.eq_of_fits hpos hmax htotal hstop hlt hm
  by_cases hl : Fits measureText font t maxWidth s.l
  · refine .inl ⟨s.l, ⟨hl, fun m hm => ?_⟩, rfl⟩
    have hm' := hm.lt_length htotal
    have hl' := hl.lt_length htotal
    rcases lt_trichotomy s.l m with hlt | heq | hgt
    · exact .inl (hsame m hlt hm)
    · exact .inl (heq ▸ rfl)
    · by_cases hthree : s.l ≤ 3
      · left
        rw [trimFunction_of_le_three hm' (by omega), trimFunction_of_le_three hl' hthree]
      · right
        rw [length_trimFunction hm', length_trimFunction hl']
        omega
  · -- nothing has been found to fit, so `l` is still zero
    have hzero : s.l = 0 := by
      rcases h.below with ⟨hl0, -⟩ | ⟨hwidth, hle⟩
      · exact hl0
      · exact absurd ⟨h.l_nonneg, h.l_le_r.trans h.r_le_length, hwidth ▸ hle⟩ hl
    have hlen := List.length_pos_of_ne_nil ht
    refine .inr ⟨fun m hm => ?_, ?_⟩
    · rcases hm.nonneg.lt_or_eq with hlt | heq
      · have hcut := hsame m (by omega) hm
        refine hl ⟨h.l_nonneg, h.l_le_r.trans h.r_le_length, ?_⟩
        rw [widthAt, ← hcut]
        exact hm.width_le
      · rw [hzero, heq] at hl
        exact hl hm
    · rw [hzero, trimFunction_of_le_three (by omega) (by omega), orEmpty]
      simp

end

/-! ## The main result -/

section

variable {measureText : (font : String) → Text → ℚ} {font : String} {maxWidth : ℚ}

theorem length_shortened_le (text : Text) :
    (shortened text).length ≤ maxTextMeasureCacheLength := by
  unfold shortened
  split
  · rename_i hlong
    rw [length_trimFunction hlong]
    decide
  · rename_i hshort
    unfold maxLength at hshort
    unfold maxTextMeasureCacheLength
    omega

/-- The search ends, with its answer. -/
theorem search_ends (hpos : ∀ char, 0 < measureText font [char]) (hmax : 0 < maxWidth) {t : Text}
    (hlen : t.length ≤ maxTextMeasureCacheLength)
    (htotal : maxWidth < total measureText font t) {cache : Cache}
    (hexact : cache.Exact measureText) :
    ∃ s, Ends (goesOn maxWidth) (turn measureText font t maxWidth)
        ⟨0, t.length, 0, total measureText font t, cache⟩ s ∧
      Chosen measureText font t maxWidth (orEmpty (trimFunction t s.l)) := by
  have ht : t ≠ [] := by
    rintro rfl
    exact absurd htotal (not_lt.2 hmax.le)
  have hstart : Bracket measureText font t maxWidth
      ⟨0, t.length, 0, total measureText font t, cache⟩ :=
    ⟨le_refl _, Int.natCast_nonneg _, le_refl _, .inl ⟨rfl, rfl⟩, htotal,
      fun m hm hle => absurd hle (not_le.2 hm), hexact⟩
  obtain ⟨s, hends, hbracket, hstop⟩ := ends_of_variant (fun s : Search => (s.r - s.l).toNat)
    (fun s hs hgo => hs.turn hpos hmax.le htotal ht hlen hgo) hstart
  exact ⟨s, hends, hbracket.chosen hpos hmax htotal ht hstop⟩

theorem Chosen.fits {t result : Text} (h : Chosen measureText font t maxWidth result) :
    result = [] ∨ total measureText font result ≤ maxWidth := by
  rcases h with ⟨m, hm, heq⟩ | ⟨-, heq⟩
  · by_cases hbare : trimFunction t m = [ellipsis]
    · left
      rw [heq, orEmpty, if_neg (not_not.2 hbare)]
    · right
      rw [heq, orEmpty, if_pos hbare]
      exact hm.fits.width_le
  · exact .inl heq

/-- A shortened text that fits is the longest of its candidates. -/
theorem chosen_shortened {text : Text} (hlong : maxLength < text.length)
    (hfits : total measureText font (shortened text) ≤ maxWidth) :
    Chosen measureText font (shortened text) maxWidth (shortened text) := by
  have hlen : (shortened text).length = 198 := by
    rw [shortened, if_pos hlong, length_trimFunction hlong]
    rfl
  generalize shortened text = t at hfits hlen
  have hself : trimFunction t t.length = t := trimFunction_of_le (le_refl _)
  refine .inl ⟨t.length, ⟨⟨Int.natCast_nonneg _, le_refl _, ?_⟩, fun m hm => ?_⟩, ?_⟩
  · rw [widthAt, hself]
    exact hfits
  · rcases hm.le_length.lt_or_eq with hlt | heq
    · right
      rw [hself, length_trimFunction hlt, hlen]
      rw [hlen] at hlt
      omega
    · exact .inl (heq ▸ rfl)
  · have hbare : t ≠ [ellipsis] := by
      rintro rfl
      cases hlen
    rw [hself, orEmpty, if_pos hbare]

theorem trimTextRight_eq (measureText : (font : String) → Text → ℚ) (font : String)
    (hmax : 10 < maxWidth) (text : Text) (fuel : ℕ) (cache : Cache) :
    trimTextRight measureText font text maxWidth fuel cache =
      let first := measureTextWidth measureText font (shortened text) cache
      if first.1 ≤ maxWidth then some (shortened text, first.2)
      else
        (whileLoop (goesOn maxWidth) (turn measureText font (shortened text) maxWidth) fuel
            ⟨0, (shortened text).length, 0, first.1, first.2⟩).map fun s =>
          (orEmpty (trimFunction (shortened text) s.l), s.cache) :=
  if_neg (not_le.2 hmax)

/-- The search ends, and the result is the longest label that fits, whatever has been
measured before. -/
theorem trimTextRight_longest (measureText : (font : String) → Text → ℚ) (font : String)
    (hpos : ∀ char, 0 < measureText font [char]) (calls : List (String × Text)) (text : Text)
    (maxWidth : ℚ) (hmax : 10 < maxWidth) :
    ∃ fuel result cache,
      trimTextRight measureText font text maxWidth fuel (measured measureText calls) =
        some (result, cache) ∧
      (result = [] ∨ total measureText font result ≤ maxWidth) ∧
      (text.length ≤ maxLength → total measureText font text ≤ maxWidth → result = text) ∧
      (¬(text.length ≤ maxLength ∧ total measureText font text ≤ maxWidth) →
        Chosen measureText font (shortened text) maxWidth result) := by
  obtain ⟨hmeasure, hexact⟩ := measureTextWidth_spec font (measured_exact measureText calls)
    (shortened text)
  have hmeasure := hmeasure (length_shortened_le text)
  have hrun := fun fuel =>
    trimTextRight_eq measureText font hmax text fuel (measured measureText calls)
  simp only [hmeasure] at hrun
  have hshort : text.length ≤ maxLength → shortened text = text := fun h => if_neg (not_lt.2 h)
  by_cases hfits : total measureText font (shortened text) ≤ maxWidth
  · refine ⟨0, _, _, (hrun 0).trans (if_pos hfits), .inr hfits, fun h _ => hshort h,
      fun hnot => ?_⟩
    have hlong : maxLength < text.length := by
      by_contra h
      have h := not_lt.1 h
      exact hnot ⟨h, hshort h ▸ hfits⟩
    exact chosen_shortened hlong hfits
  · obtain ⟨s, ⟨fuel, hsearch⟩, hchosen⟩ := search_ends hpos (by linarith)
      (length_shortened_le text) (not_le.1 hfits) hexact
    have hresult := (hrun fuel).trans (if_neg hfits)
    rw [hsearch] at hresult
    refine ⟨fuel, _, _, hresult, hchosen.fits, fun h hle => ?_, fun _ => hchosen⟩
    rw [hshort h] at hfits
    exact absurd hle hfits

/-- Characters of width 8: of seven, four fit in 40 with the ellipsis. -/
theorem trimTextRight_seven :
    let measureText : (font : String) → Text → ℚ := fun _ text => 8 * text.length
    ∃ fuel result cache,
      trimTextRight measureText "11px" [65, 66, 67, 68, 69, 70, 71] 40 fuel
        (measured measureText [("11px", [65]), ("11px", [65, 66])]) = some (result, cache) ∧
      (result = [] ∨ total measureText "11px" result ≤ 40) := by
  intro measureText
  obtain ⟨fuel, result, cache, hrun, hfits, -, -⟩ := trimTextRight_longest measureText "11px"
    (fun _ => by norm_num [measureText]) [("11px", [65]), ("11px", [65, 66])]
    [65, 66, 67, 68, 69, 70, 71] 40 (by norm_num)
  exact ⟨fuel, result, cache, hrun, hfits⟩

end

end SatAllocatorTest.Ports.Monitor.TrimText

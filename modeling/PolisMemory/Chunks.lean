/-
# Chunks

`chunk_text` of `crates/polis-core/src/vec.rs`: the text that is embedded is read in
windows, each broken off at a fence, a blank line or the end of a sentence, and the
next window begins a little before. Whatever the breaks are, the chunks are pieces
of the text that leave out only white space (`chunkText_lawful`).

A fenced block that fits a window is to stay whole. The window's first fences are
counted in bytes and the place of the break in characters, and only the first
block is looked at. A block is whole in a chunk if and only if the last window
that begins no later than it is not broken off inside it (`chunkText_keeps_iff`).

Key definitions: `chunkText`, `bodyWindows`, `ChunkLaw`, `fencedBlocks`, `Spares`.
Key theorems: `chunkText_eq`, `chunkText_lawful`, `chunkText_keeps_iff`,
`accents_split`.
-/
import Mathlib.Data.List.Chain
import Mathlib.Data.List.TakeWhile
import Mathlib.Data.Finset.Max
import PolisMemory.Catalog
import PolisMemory.Occurrences

namespace PolisMemory

open Occurrences

/-- `CHUNK_TARGET`. -/
def chunkTarget : ℕ := 800

/-- `CHUNK_MAX`. -/
def chunkMax : ℕ := 1200

/-- `CHUNK_OVERLAP`. -/
def chunkOverlap : ℕ := 150

/-- `OPENING_CHARS`. -/
def openingChars : ℕ := 400

/-- `Chunk`. -/
structure Chunk where
  ix : ℕ
  charStart : ℕ
  charLen : ℕ
  text : String
deriving DecidableEq

/-- `chars[start..stop]`. -/
def piece (chars : List Char) (start stop : ℕ) : List Char := (chars.drop start).take (stop - start)

/-! ### Breaks -/

/-- The delimiter of a code block. -/
def fence : List Char := ['`', '`', '`']

/-- The bytes that characters take. -/
def utf8Len (cs : List Char) : ℕ := (cs.map Char.utf8Size).sum

/-- What is before the first fence, between it and the next, and after that. -/
def firstFences? (cs : List Char) : Option (List Char × List Char × List Char) :=
  (cut? fence cs).bind fun p => (cut? fence p.2).map fun q => (p.1, q.1, q.2)

/-- How far into the window its first two fences reach: `open + 3 + close + 3`, in
bytes. -/
def fencesEnd? (window : List Char) : Option ℕ :=
  (firstFences? window).map fun p => utf8Len p.1 + 3 + utf8Len p.2.1 + 3

/-- `chars[i] == '\n' && chars[i + 1] == '\n'`. -/
def blankLine (chars : List Char) (i : ℕ) : Bool :=
  chars[i]? = some '\n' && chars[i + 1]? = some '\n'

/-- A full stop and white space or nothing after it. -/
def sentenceEnd (chars : List Char) (i : ℕ) : Bool :=
  (chars[i]? = some '.' || chars[i]? = some '!' || chars[i]? = some '?') &&
    chars[i + 1]?.all isWhitespace

/-- The break where no fences are kept: a blank line, the end of a sentence, or the
hard cut. -/
def proseBreak (chars : List Char) (target hard : ℕ) : ℕ :=
  match (List.range' target (hard - 1 - target)).find? (blankLine chars) with
  | some i => i + 2
  | none =>
    match (List.range' target (hard - target)).find? (sentenceEnd chars) with
    | some i => i + 1
    | none => hard

/-- `find_break`. -/
def findBreak (chars : List Char) (start target hard : ℕ) : ℕ :=
  match fencesEnd? (piece chars start hard) with
  | some n => if target < start + n ∧ start + n ≤ hard then start + n
    else proseBreak chars target hard
  | none => proseBreak chars target hard

/-- Where the window that begins at `start` ends. -/
def windowEnd (chars : List Char) (start : ℕ) : ℕ :=
  let hardEnd := min (start + chunkMax) chars.length
  let targetEnd := min (start + chunkTarget) chars.length
  if hardEnd = chars.length then chars.length else findBreak chars start targetEnd hardEnd

/-! ### The loop -/

/-- A chunk, unless it is blank. -/
def pushWindow (chars : List Char) (out : List Chunk) (w : ℕ × ℕ) : List Chunk :=
  let text := String.ofList (piece chars w.1 w.2)
  if trim text = "" then out else out ++ [⟨out.length, w.1, w.2 - w.1, text⟩]

/-- `chunk_text`'s loop. -/
def chunkLoop (chars : List Char) (start : ℕ) (out : List Chunk) : List Chunk :=
  if start < chars.length then
    let stop := windowEnd chars start
    let out := pushWindow chars out (start, stop)
    if chars.length ≤ stop then out
    else chunkLoop chars (max (stop - chunkOverlap) (start + 1)) out
  else out
termination_by chars.length - start
decreasing_by omega

/-- Chunk 0. -/
def opening (chars : List Char) : Chunk where
  ix := 0
  charStart := 0
  charLen := min openingChars chars.length
  text := String.ofList (chars.take (min openingChars chars.length))

/-- `chunk_text`. -/
def chunkText (text : String) : List Chunk :=
  let chars := text.toList
  if chars = [] then []
  else if chars.length ≤ openingChars then [opening chars]
  else chunkLoop chars 0 [opening chars]

/-- The windows of the loop, blank or not. -/
def bodyWindows (chars : List Char) (start : ℕ) : List (ℕ × ℕ) :=
  if start < chars.length then
    (start, windowEnd chars start) ::
      if chars.length ≤ windowEnd chars start then []
      else bodyWindows chars (max (windowEnd chars start - chunkOverlap) (start + 1))
  else []
termination_by chars.length - start
decreasing_by omega

/-- `chunk_text`'s windows of a text. -/
def windowsOf (text : String) : List (ℕ × ℕ) :=
  if text.toList.length ≤ openingChars then [] else bodyWindows text.toList 0

variable {chars : List Char} {start stop target hard i : ℕ} {w : ℕ × ℕ}

theorem proseBreak_bounds (h : target < hard) :
    target < proseBreak chars target hard ∧ proseBreak chars target hard ≤ hard := by
  unfold proseBreak
  split
  · next i hi =>
    have := List.mem_range'_1.mp (List.mem_of_find?_eq_some hi)
    omega
  · split
    · next i hi =>
      have := List.mem_range'_1.mp (List.mem_of_find?_eq_some hi)
      omega
    · omega

theorem findBreak_bounds (h : target < hard) :
    target < findBreak chars start target hard ∧ findBreak chars start target hard ≤ hard := by
  unfold findBreak
  split
  · split
    · assumption
    · exact proseBreak_bounds h
  · exact proseBreak_bounds h

/-- A window that is not the last one. -/
theorem windowEnd_of_lt (h : start + chunkMax < chars.length) : windowEnd chars start =
    findBreak chars start (start + chunkTarget) (start + chunkMax) := by
  unfold windowEnd
  have htarget : start + chunkTarget < chars.length := by
    unfold chunkTarget
    unfold chunkMax at h
    omega
  simp only [Nat.min_eq_left (Nat.le_of_lt h), Nat.min_eq_left (Nat.le_of_lt htarget)]
  rw [if_neg (by omega)]

theorem windowEnd_of_le (h : chars.length ≤ start + chunkMax) :
    windowEnd chars start = chars.length := by
  unfold windowEnd
  rw [Nat.min_eq_right h]
  simp

/-- A window ends with the text, or is longer than the target. -/
theorem windowEnd_bounds (h : start < chars.length) :
    start < windowEnd chars start ∧ windowEnd chars start ≤ start + chunkMax ∧
      windowEnd chars start ≤ chars.length ∧
      (windowEnd chars start < chars.length → start + chunkTarget < windowEnd chars start) := by
  by_cases hlast : chars.length ≤ start + chunkMax
  · rw [windowEnd_of_le hlast]
    omega
  · have hlt : start + chunkMax < chars.length := by omega
    rw [windowEnd_of_lt hlt]
    have htarget : start + chunkTarget < start + chunkMax := by
      unfold chunkTarget chunkMax
      omega
    have hbounds := @findBreak_bounds chars start _ _ htarget
    omega

/-- The step back is the overlap. -/
theorem next_start (h : start < chars.length) (hmore : windowEnd chars start < chars.length) :
    max (windowEnd chars start - chunkOverlap) (start + 1) = windowEnd chars start - chunkOverlap ∧
      start + (chunkTarget - chunkOverlap) < windowEnd chars start - chunkOverlap := by
  have hlong := (windowEnd_bounds h).2.2.2 hmore
  unfold chunkTarget at hlong
  unfold chunkOverlap chunkTarget
  omega

theorem chunkLoop_done (h : chars.length ≤ start) (out : List Chunk) :
    chunkLoop chars start out = out := by
  unfold chunkLoop
  rw [if_neg (by omega)]

theorem chunkLoop_last (h : start < chars.length) (hend : windowEnd chars start = chars.length)
    (out : List Chunk) :
    chunkLoop chars start out = pushWindow chars out (start, windowEnd chars start) := by
  unfold chunkLoop
  rw [if_pos h]
  exact if_pos (Nat.le_of_eq hend.symm)

theorem chunkLoop_more (h : start < chars.length) (hend : windowEnd chars start < chars.length)
    (out : List Chunk) : chunkLoop chars start out =
      chunkLoop chars (windowEnd chars start - chunkOverlap)
        (pushWindow chars out (start, windowEnd chars start)) := by
  conv_lhs => unfold chunkLoop
  rw [if_pos h, ← (next_start h hend).1]
  exact if_neg (by omega)

theorem bodyWindows_done (h : chars.length ≤ start) : bodyWindows chars start = [] := by
  unfold bodyWindows
  rw [if_neg (by omega)]

theorem bodyWindows_last (h : start < chars.length)
    (hend : windowEnd chars start = chars.length) :
    bodyWindows chars start = [(start, windowEnd chars start)] := by
  unfold bodyWindows
  rw [if_pos h, if_pos (Nat.le_of_eq hend.symm)]

theorem bodyWindows_more (h : start < chars.length)
    (hend : windowEnd chars start < chars.length) : bodyWindows chars start =
      (start, windowEnd chars start) ::
        bodyWindows chars (windowEnd chars start - chunkOverlap) := by
  conv_lhs => unfold bodyWindows
  rw [if_pos h, if_neg (by omega), (next_start h hend).1]

/-- From the end of the text back, window by window. -/
@[elab_as_elim]
theorem window_induction (chars : List Char) {P : ℕ → Prop}
    (done : ∀ start, chars.length ≤ start → P start)
    (last : ∀ start, start < chars.length → windowEnd chars start = chars.length → P start)
    (more : ∀ start, start < chars.length → windowEnd chars start < chars.length →
      P (windowEnd chars start - chunkOverlap) → P start) (start : ℕ) : P start := by
  by_cases h : start < chars.length
  · by_cases hend : windowEnd chars start < chars.length
    · have hnext := (next_start h hend).2
      exact more start h hend (window_induction chars done last more _)
    · have hle := (windowEnd_bounds h).2.2.1
      exact last start h (by omega)
  · exact done start (by omega)
termination_by chars.length - start
decreasing_by omega

/-- The loop makes its chunks from the windows. -/
theorem chunkLoop_eq (start : ℕ) (out : List Chunk) : chunkLoop chars start out =
    (bodyWindows chars start).foldl (pushWindow chars) out := by
  induction start using window_induction chars generalizing out with
  | done start h => rw [chunkLoop_done h, bodyWindows_done h, List.foldl_nil]
  | last start h hend =>
    rw [chunkLoop_last h hend, bodyWindows_last h hend, List.foldl_cons, List.foldl_nil]
  | more start h hend ih => rw [chunkLoop_more h hend, bodyWindows_more h hend, List.foldl_cons, ih]

theorem chunkText_eq (text : String) (hlong : openingChars < text.toList.length) :
    chunkText text = (windowsOf text).foldl (pushWindow text.toList) [opening text.toList] := by
  unfold chunkText windowsOf
  have hne : text.toList ≠ [] := by
    intro h
    simp [h] at hlong
  simp only [if_neg hne, if_neg (Nat.not_le.mpr hlong), chunkLoop_eq]

theorem chunkText_short (text : String) (hshort : text.toList.length ≤ openingChars) :
    chunkText text = if text.toList = [] then [] else [opening text.toList] := by
  unfold chunkText
  simp only [if_pos hshort]

/-! ### The windows -/

/-- What a window is. -/
theorem mem_bodyWindows (hw : w ∈ bodyWindows chars start) :
    start ≤ w.1 ∧ w.1 < chars.length ∧ w.2 = windowEnd chars w.1 := by
  induction start using window_induction chars with
  | done start h =>
    rw [bodyWindows_done h] at hw
    cases hw
  | last start h hend =>
    rw [bodyWindows_last h hend] at hw
    obtain rfl := List.mem_singleton.mp hw
    exact ⟨Nat.le_refl _, h, rfl⟩
  | more start h hend ih =>
    rw [bodyWindows_more h hend] at hw
    have hnext := (next_start h hend).2
    rcases List.mem_cons.mp hw with rfl | hw
    · exact ⟨Nat.le_refl _, h, rfl⟩
    · obtain ⟨hstart, hw⟩ := ih hw
      exact ⟨by omega, hw⟩

/-- The windows leave no character out. -/
theorem bodyWindows_cover (hi : start ≤ i) (hlen : i < chars.length) :
    ∃ w ∈ bodyWindows chars start, w.1 ≤ i ∧ i < w.2 := by
  induction start using window_induction chars with
  | done start h => omega
  | last start h hend =>
    rw [bodyWindows_last h hend]
    exact ⟨_, List.mem_singleton_self _, hi, by rw [hend]; exact hlen⟩
  | more start h hend ih =>
    rw [bodyWindows_more h hend]
    by_cases hin : i < windowEnd chars start
    · exact ⟨_, List.mem_cons_self, hi, hin⟩
    · obtain ⟨w, hw, hwi⟩ := ih (by omega)
      exact ⟨w, List.mem_cons_of_mem _ hw, hwi⟩

/-- The second window begins the overlap before the first one's end, and ends later. -/
def Overlaps (v w : ℕ × ℕ) : Prop := v.1 < w.1 ∧ w.1 + chunkOverlap = v.2 ∧ v.2 < w.2

theorem bodyWindows_head (h : start < chars.length) :
    ∃ ws, bodyWindows chars start = (start, windowEnd chars start) :: ws := by
  have hle := (windowEnd_bounds h).2.2.1
  rcases Nat.lt_or_eq_of_le hle with hend | hend
  · exact ⟨_, bodyWindows_more h hend⟩
  · exact ⟨_, bodyWindows_last h hend⟩

theorem bodyWindows_overlap : (bodyWindows chars start).IsChain Overlaps := by
  induction start using window_induction chars with
  | done start h =>
    rw [bodyWindows_done h]
    exact .nil
  | last start h hend =>
    rw [bodyWindows_last h hend]
    exact .singleton _
  | more start h hend ih =>
    rw [bodyWindows_more h hend]
    have hnext := (next_start h hend).2
    have hlt : windowEnd chars start - chunkOverlap < chars.length := by omega
    obtain ⟨ws, hws⟩ := bodyWindows_head hlt
    rw [hws] at ih ⊢
    refine List.IsChain.cons_cons ⟨?_, ?_, ?_⟩ ih
    · show start < windowEnd chars start - chunkOverlap
      omega
    · show windowEnd chars start - chunkOverlap + chunkOverlap = windowEnd chars start
      unfold chunkOverlap chunkTarget at *
      omega
    · show windowEnd chars start < windowEnd chars (windowEnd chars start - chunkOverlap)
      have hbounds := windowEnd_bounds hlt
      unfold chunkOverlap chunkTarget at *
      omega

/-! ### The chunks -/

/-- A window with nothing but white space in it. -/
def blankWindow (chars : List Char) (w : ℕ × ℕ) : Bool :=
  trim (String.ofList (piece chars w.1 w.2)) = ""

/-- A window's chunk. -/
def windowChunk (chars : List Char) (ix : ℕ) (w : ℕ × ℕ) : Chunk where
  ix := ix
  charStart := w.1
  charLen := w.2 - w.1
  text := String.ofList (piece chars w.1 w.2)

/-- Where a chunk begins and where it ends. -/
def Chunk.span (c : Chunk) : ℕ × ℕ := (c.charStart, c.charStart + c.charLen)

/-- The chunks of a text, made from its windows: numbered pieces of it, none too
long and none but the first blank; the windows overlap, and nothing but white
space is in none of the chunks. -/
structure ChunkLaw (text : String) (windows : List (ℕ × ℕ)) (chunks : List Chunk) : Prop where
  exact : ∀ c ∈ chunks, c.charStart + c.charLen ≤ text.toList.length ∧
    c.text.toList = piece text.toList c.charStart (c.charStart + c.charLen)
  short : ∀ c ∈ chunks, c.charLen ≤ chunkMax
  numbered : ∀ (k : ℕ) (c : Chunk), chunks[k]? = some c → c.ix = k
  filled : ∀ (k : ℕ) (c : Chunk), chunks[k]? = some c → trim c.text = "" → k = 0
  first : chunks.head? = if text.toList = [] then none else some (opening text.toList)
  body : chunks.tail.map Chunk.span = windows.filter fun w => !blankWindow text.toList w
  overlap : windows.IsChain Overlaps
  cover : ∀ i c, text.toList[i]? = some c → isWhitespace c = false →
    ∃ chunk ∈ chunks, chunk.charStart ≤ i ∧ i < chunk.charStart + chunk.charLen

theorem pushWindow_eq (out : List Chunk) (w : ℕ × ℕ) : pushWindow chars out w =
    if blankWindow chars w then out else out ++ [windowChunk chars out.length w] := by
  unfold pushWindow blankWindow
  simp only [decide_eq_true_eq]
  rfl

theorem pushWindow_foldl (ws : List (ℕ × ℕ)) (out : List Chunk) :
    ws.foldl (pushWindow chars) out = out ++
      (ws.filter fun w => !blankWindow chars w).mapIdx fun k => windowChunk chars (out.length + k) := by
  induction ws generalizing out with
  | nil => simp
  | cons w ws ih =>
    rw [List.foldl_cons, ih, pushWindow_eq, List.filter_cons]
    cases blankWindow chars w with
    | true => simp
    | false => simp [List.mapIdx_cons, Nat.add_assoc, Nat.add_comm 1]

theorem mem_piece {c : Char} (hi : chars[i]? = some c) (hstart : start ≤ i) (hstop : i < stop) :
    c ∈ piece chars start stop := by
  apply List.mem_of_getElem? (i := i - start)
  unfold piece
  rw [List.getElem?_take_of_lt (by omega), List.getElem?_drop]
  rw [show start + (i - start) = i by omega, hi]

theorem trim_ne_empty {s : String} {c : Char} (hc : c ∈ s.toList) (hspace : isWhitespace c = false) :
    trim s ≠ "" := by
  intro h
  have hnil := congrArg String.toList h
  unfold trim at hnil
  simp only [String.toList_ofList, String.toList_empty, List.reverse_eq_nil_iff,
    List.dropWhile_eq_nil_iff, List.mem_reverse] at hnil
  have hrest : s.toList.dropWhile isWhitespace = [] := by
    cases hdrop : s.toList.dropWhile isWhitespace with
    | nil => rfl
    | cons d ds =>
      have hd := List.head?_dropWhile_not isWhitespace s.toList
      rw [hdrop] at hd hnil
      simp [hnil d List.mem_cons_self] at hd
  have := List.dropWhile_eq_nil_iff.mp hrest c hc
  rw [hspace] at this
  cases this

theorem mem_windowsOf {text : String} (hw : w ∈ windowsOf text) :
    openingChars < text.toList.length ∧ w.1 < text.toList.length ∧
      w.2 = windowEnd text.toList w.1 := by
  unfold windowsOf at hw
  split at hw
  · cases hw
  · next hlong => exact ⟨by omega, (mem_bodyWindows hw).2⟩

theorem chunkText_nil {text : String} (hnil : text.toList = []) : chunkText text = [] := by
  unfold chunkText
  simp only [if_pos hnil]

/-- The opening, and the windows that are not blank. -/
theorem chunkText_cons (text : String) (hne : text.toList ≠ []) : chunkText text =
    opening text.toList :: ((windowsOf text).filter fun w => !blankWindow text.toList w).mapIdx
      fun k => windowChunk text.toList (1 + k) := by
  by_cases hlong : openingChars < text.toList.length
  · rw [chunkText_eq text hlong, pushWindow_foldl]
    rfl
  · have hshort := Nat.not_lt.mp hlong
    rw [chunkText_short text hshort, if_neg hne]
    unfold windowsOf
    rw [if_pos hshort]
    rfl

/-- A chunk is the opening or a window's. -/
theorem chunk_cases {text : String} {k : ℕ} {c : Chunk} (hc : (chunkText text)[k]? = some c) :
    (k = 0 ∧ c = opening text.toList) ∨
      0 < k ∧ ∃ w ∈ windowsOf text, blankWindow text.toList w = false ∧
        c = windowChunk text.toList k w := by
  by_cases hne : text.toList = []
  · rw [chunkText_nil hne] at hc
    cases hc
  · rw [chunkText_cons text hne] at hc
    cases k with
    | zero => exact .inl ⟨rfl, (Option.some.inj hc).symm⟩
    | succ k =>
      rw [List.getElem?_cons_succ, List.getElem?_mapIdx] at hc
      obtain ⟨w, hw, rfl⟩ := Option.map_eq_some_iff.mp hc
      obtain ⟨hmem, hblank⟩ := List.mem_filter.mp (List.mem_of_getElem? hw)
      refine .inr ⟨k.succ_pos, w, hmem, by simpa using hblank, ?_⟩
      rw [Nat.add_comm 1 k]

theorem span_windowChunk {text : String} (hw : w ∈ windowsOf text) (k : ℕ) :
    (windowChunk text.toList k w).span = w := by
  obtain ⟨-, hlt, hstop⟩ := mem_windowsOf hw
  have hbounds := windowEnd_bounds hlt
  have hend : w.1 + (w.2 - w.1) = w.2 := by omega
  show (w.1, w.1 + (w.2 - w.1)) = w
  rw [hend]

theorem chunk_of_window {text : String} (hw : w ∈ windowsOf text)
    (hblank : blankWindow text.toList w = false) : ∃ c ∈ chunkText text, c.span = w := by
  have hlong := (mem_windowsOf hw).1
  have hne : text.toList ≠ [] := by
    intro h
    simp [h] at hlong
  obtain ⟨k, hk⟩ := List.mem_iff_getElem?.mp
    (List.mem_filter.mpr ⟨hw, by rw [hblank]; rfl⟩ :
      w ∈ (windowsOf text).filter fun w => !blankWindow text.toList w)
  refine ⟨windowChunk text.toList (1 + k) w, ?_, span_windowChunk hw _⟩
  rw [chunkText_cons text hne]
  apply List.mem_cons_of_mem
  apply List.mem_of_getElem? (i := k)
  rw [List.getElem?_mapIdx, hk]
  rfl

/-- **The law of the chunks.** -/
theorem chunkText_lawful (text : String) : ChunkLaw text (windowsOf text) (chunkText text) where
  exact c hc := by
    obtain ⟨k, hk⟩ := List.mem_iff_getElem?.mp hc
    rcases chunk_cases hk with ⟨-, rfl⟩ | ⟨-, w, hw, -, rfl⟩
    · show 0 + min openingChars text.toList.length ≤ _ ∧ _
      refine ⟨by omega, ?_⟩
      unfold opening piece
      simp
    · obtain ⟨-, hlt, hstop⟩ := mem_windowsOf hw
      have hbounds := windowEnd_bounds hlt
      have hend : w.1 + (w.2 - w.1) = w.2 := by omega
      show w.1 + (w.2 - w.1) ≤ _ ∧ (String.ofList _).toList = piece _ w.1 (w.1 + (w.2 - w.1))
      rw [hend, String.toList_ofList]
      exact ⟨by omega, rfl⟩
  short c hc := by
    obtain ⟨k, hk⟩ := List.mem_iff_getElem?.mp hc
    rcases chunk_cases hk with ⟨-, rfl⟩ | ⟨-, w, hw, -, rfl⟩
    · show min openingChars text.toList.length ≤ chunkMax
      unfold openingChars chunkMax
      omega
    · obtain ⟨-, hlt, hstop⟩ := mem_windowsOf hw
      have hbounds := windowEnd_bounds hlt
      show w.2 - w.1 ≤ chunkMax
      omega
  numbered k c hk := by
    rcases chunk_cases hk with ⟨rfl, rfl⟩ | ⟨-, w, -, -, rfl⟩
    · rfl
    · rfl
  filled k c hk htrim := by
    rcases chunk_cases hk with ⟨rfl, -⟩ | ⟨-, w, -, hblank, rfl⟩
    · rfl
    · exact absurd htrim (of_decide_eq_false hblank)
  first := by
    by_cases hne : text.toList = []
    · rw [if_pos hne, chunkText_nil hne]
      rfl
    · rw [if_neg hne, chunkText_cons text hne]
      rfl
  body := by
    by_cases hne : text.toList = []
    · rw [chunkText_nil hne]
      unfold windowsOf
      simp [hne]
    · rw [chunkText_cons text hne, List.tail_cons]
      apply List.ext_getElem?
      intro k
      rw [List.getElem?_map, List.getElem?_mapIdx, Option.map_map]
      cases hk : ((windowsOf text).filter fun w => !blankWindow text.toList w)[k]? with
      | none => rfl
      | some w =>
        have hw := (List.mem_filter.mp (List.mem_of_getElem? hk)).1
        exact congrArg some (span_windowChunk hw _)
  overlap := by
    unfold windowsOf
    split
    · exact .nil
    · exact bodyWindows_overlap
  cover i c hi hspace := by
    obtain ⟨hlen, -⟩ := List.getElem?_eq_some_iff.mp hi
    by_cases hlong : openingChars < text.toList.length
    · obtain ⟨w, hw, hwi⟩ := bodyWindows_cover (Nat.zero_le i) hlen
      have hmem : w ∈ windowsOf text := by
        unfold windowsOf
        rw [if_neg (by omega)]
        exact hw
      have hblank : blankWindow text.toList w = false := by
        apply decide_eq_false
        apply trim_ne_empty (c := c) _ hspace
        rw [String.toList_ofList]
        exact mem_piece hi hwi.1 hwi.2
      obtain ⟨chunk, hchunk, rfl⟩ := chunk_of_window hmem hblank
      exact ⟨chunk, hchunk, hwi⟩
    · have hne : text.toList ≠ [] := by
        intro h
        simp [h] at hlen
      refine ⟨opening text.toList, ?_, Nat.zero_le _, ?_⟩
      · rw [chunkText_cons text hne]
        exact List.mem_cons_self
      · show i < 0 + min openingChars text.toList.length
        omega

/-! ### Fenced blocks -/

theorem firstFences?_append {cs before inside rest : List Char}
    (h : firstFences? cs = some (before, inside, rest)) :
    cs = before ++ (fence ++ (inside ++ (fence ++ rest))) := by
  obtain ⟨p, hp, hmap⟩ := Option.bind_eq_some_iff.mp h
  obtain ⟨q, hq, heq⟩ := Option.map_eq_some_iff.mp hmap
  cases heq
  rw [cut?_append hp, cut?_append hq]

/-- The fenced blocks from a place of the text on, each with the place of its
opening fence and the place after its closing one. -/
def blocksFrom (pos : ℕ) (cs : List Char) : List (ℕ × ℕ) :=
  match h : firstFences? cs with
  | none => []
  | some (before, inside, rest) =>
    let start := pos + before.length
    let stop := start + 3 + inside.length + 3
    (start, stop) :: blocksFrom stop rest
termination_by cs.length
decreasing_by
  have hlen := congrArg List.length (firstFences?_append h)
  simp [fence] at hlen
  omega

/-- The fenced blocks of a text. -/
def fencedBlocks (text : String) : List (ℕ × ℕ) := blocksFrom 0 text.toList

/-- A block is in a chunk, from the opening to the closing fence. -/
def KeptWhole (text : String) (b : ℕ × ℕ) : Prop :=
  ∃ c ∈ chunkText text, c.charStart ≤ b.1 ∧ b.2 ≤ c.charStart + c.charLen

/-- A window's first two fences, counted in bytes, end between the target and the
hard cut. -/
def FencesFit (chars : List Char) (start n : ℕ) : Prop :=
  fencesEnd? (piece chars start (start + chunkMax)) = some n ∧ chunkTarget < n ∧ n ≤ chunkMax

/-- There is a blank line past the target of a window. -/
def BlankIn (chars : List Char) (start i : ℕ) : Prop :=
  start + chunkTarget ≤ i ∧ i + 1 < start + chunkMax ∧ blankLine chars i = true

/-- A sentence ends past the target of a window. -/
def SentenceIn (chars : List Char) (start i : ℕ) : Prop :=
  start + chunkTarget ≤ i ∧ i < start + chunkMax ∧ sentenceEnd chars i = true

/-- Nothing that a window is broken off at comes before `stop`. -/
structure Spares (chars : List Char) (start stop : ℕ) : Prop where
  fences : ∀ n, FencesFit chars start n → stop ≤ start + n
  lines : (∀ n, ¬ FencesFit chars start n) → ∀ i, BlankIn chars start i → stop ≤ i + 2
  sentences : (∀ n, ¬ FencesFit chars start n) → (∀ i, ¬ BlankIn chars start i) →
    ∀ i, SentenceIn chars start i → stop ≤ i + 1

variable {b : ℕ × ℕ}

theorem blocksFrom_nil {pos : ℕ} {cs : List Char} (h : firstFences? cs = none) :
    blocksFrom pos cs = [] := by
  unfold blocksFrom
  split
  · rfl
  · next h' => rw [h] at h'; cases h'

theorem blocksFrom_cons {pos : ℕ} {cs before inside rest : List Char}
    (h : firstFences? cs = some (before, inside, rest)) :
    blocksFrom pos cs = (pos + before.length, pos + before.length + 3 + inside.length + 3) ::
      blocksFrom (pos + before.length + 3 + inside.length + 3) rest := by
  conv_lhs => unfold blocksFrom
  split
  · next h' => rw [h] at h'; cases h'
  · next h' =>
    rw [h] at h'
    cases h'
    rfl

/-- A block is a piece of the text, and begins with a fence. -/
theorem mem_blocksFrom {pos : ℕ} {cs : List Char} (hb : b ∈ blocksFrom pos cs) :
    pos ≤ b.1 ∧ b.1 < b.2 ∧ b.2 ≤ pos + cs.length ∧ cs[b.1 - pos]? = some '`' := by
  induction hn : cs.length using Nat.strong_induction_on generalizing pos cs with
  | _ n ih =>
    cases h : firstFences? cs with
    | none =>
      rw [blocksFrom_nil h] at hb
      cases hb
    | some p =>
      obtain ⟨before, inside, rest⟩ := p
      rw [blocksFrom_cons h] at hb
      have hfence : fence.length = 3 := rfl
      have hcs := firstFences?_append h
      have hlen : n = before.length + 3 + inside.length + 3 + rest.length := by
        rw [← hn, hcs]
        simp only [List.length_append, hfence]
        omega
      rcases List.mem_cons.mp hb with rfl | hb
      · show pos ≤ pos + before.length ∧ _ < _ ∧ _ ≤ _ ∧ cs[pos + before.length - pos]? = _
        refine ⟨by omega, by omega, by omega, ?_⟩
        rw [Nat.add_sub_cancel_left, hcs, List.getElem?_append_right (Nat.le_refl _), Nat.sub_self]
        rfl
      · obtain ⟨hpos, hlt, hle, hchar⟩ := ih rest.length (by omega) hb rfl
        refine ⟨by omega, hlt, by omega, ?_⟩
        have hskip : ∀ (xs ys : List Char) (k : ℕ), (xs ++ ys)[xs.length + k]? = ys[k]? := by
          intro xs ys k
          rw [List.getElem?_append_right (by omega), Nat.add_sub_cancel_left]
        have hat : b.1 - pos = before.length + (fence.length + (inside.length + (fence.length +
            (b.1 - (pos + before.length + 3 + inside.length + 3))))) := by omega
        rw [hat, hcs, hskip, hskip, hskip, hskip, hchar]

/-- What the prose of a window is broken off at. -/
theorem le_proseBreak_iff (h : stop ≤ start + chunkMax) :
    stop ≤ proseBreak chars (start + chunkTarget) (start + chunkMax) ↔
      (∀ i, BlankIn chars start i → stop ≤ i + 2) ∧
        ((∀ i, ¬ BlankIn chars start i) → ∀ i, SentenceIn chars start i → stop ≤ i + 1) := by
  have htarget : start + chunkTarget < start + chunkMax := by
    unfold chunkTarget chunkMax
    omega
  unfold proseBreak
  split
  · next i hi =>
    obtain ⟨hblank, hmem, hfirst⟩ := List.find?_range'_eq_some.mp hi
    have hrange := List.mem_range'_1.mp hmem
    have hin : BlankIn chars start i := ⟨hrange.1, by omega, hblank⟩
    constructor
    · intro hle
      refine ⟨fun j hj => ?_, fun hno => absurd hin (hno i)⟩
      have hij : i ≤ j := by
        by_contra hlt
        have := hfirst j hj.1 (by omega)
        rw [hj.2.2] at this
        cases this
      omega
    · exact fun hle => hle.1 i hin
  · next hnone =>
    have hno : ∀ i, ¬ BlankIn chars start i := by
      intro i hi
      have := List.find?_range'_eq_none.mp hnone i hi.1 (by have := hi.2.1; omega)
      rw [hi.2.2] at this
      cases this
    split
    · next i hi =>
      obtain ⟨hsentence, hmem, hfirst⟩ := List.find?_range'_eq_some.mp hi
      have hrange := List.mem_range'_1.mp hmem
      constructor
      · intro hle
        refine ⟨fun j hj => absurd hj (hno j), fun _ j hj => ?_⟩
        have hij : i ≤ j := by
          by_contra hlt
          have := hfirst j hj.1 (by omega)
          rw [hj.2.2] at this
          cases this
        omega
      · exact fun hle => hle.2 hno i ⟨hrange.1, by omega, hsentence⟩
    · next hnone =>
      refine iff_of_true h ⟨fun i hi => absurd hi (hno i), fun _ i hi => ?_⟩
      have := List.find?_range'_eq_none.mp hnone i hi.1 (by have := hi.2.1; omega)
      rw [hi.2.2] at this
      cases this

/-- A window that is not the last one reaches what it spares. -/
theorem le_windowEnd_iff (hlast : start + chunkMax < chars.length) (h : stop ≤ start + chunkMax) :
    stop ≤ windowEnd chars start ↔ Spares chars start stop := by
  rw [windowEnd_of_lt hlast]
  unfold findBreak
  by_cases hfit : ∃ n, FencesFit chars start n
  · obtain ⟨n, hn⟩ := hfit
    have hone : ∀ m, FencesFit chars start m → m = n := fun m hm =>
      Option.some.inj (hm.1.symm.trans hn.1)
    rw [hn.1]
    simp only
    rw [if_pos ⟨by have := hn.2.1; omega, by have := hn.2.2; omega⟩]
    constructor
    · intro hle
      refine ⟨fun m hm => ?_, fun hno => absurd hn (hno n), fun hno => absurd hn (hno n)⟩
      rw [hone m hm]
      exact hle
    · exact fun hspare => hspare.fences n hn
  · have hno : ∀ n, ¬ FencesFit chars start n := fun n hn => hfit ⟨n, hn⟩
    have hprose : Spares chars start stop ↔ _ := ⟨fun hs => (⟨hs.lines hno, hs.sentences hno⟩ :
      (∀ i, BlankIn chars start i → stop ≤ i + 2) ∧
        ((∀ i, ¬ BlankIn chars start i) → ∀ i, SentenceIn chars start i → stop ≤ i + 1)),
      fun hs => ⟨fun n hn => absurd hn (hno n), fun _ => hs.1, fun _ => hs.2⟩⟩
    rw [hprose, ← le_proseBreak_iff h]
    split
    · next n hn =>
      rw [if_neg]
      exact fun hfit => hno n ⟨hn, by omega, by omega⟩
    · rfl

/-- A later window ends later. -/
theorem bodyWindows_mono {v w : ℕ × ℕ} (hv : v ∈ bodyWindows chars start)
    (hw : w ∈ bodyWindows chars start) (h : v.1 ≤ w.1) : v.2 ≤ w.2 := by
  have htrans : IsTrans (ℕ × ℕ) fun v w => v.1 < w.1 ∧ v.2 < w.2 :=
    ⟨fun _ _ _ hab hbc => ⟨hab.1.trans hbc.1, hab.2.trans hbc.2⟩⟩
  have hpair : (bodyWindows chars start).Pairwise fun v w => v.1 < w.1 ∧ v.2 < w.2 :=
    (bodyWindows_overlap.imp fun v w hvw => ⟨hvw.1, hvw.2.2⟩).pairwise
  have hboth : (bodyWindows chars start).Pairwise fun v w =>
      (v.1 ≤ w.1 → v.2 ≤ w.2) ∧ (w.1 ≤ v.1 → w.2 ≤ v.2) := by
    refine hpair.imp fun {v w} hvw => ⟨fun _ => Nat.le_of_lt hvw.2, fun hle => ?_⟩
    have := hvw.1
    omega
  have hsymm : Std.Symm fun v w : ℕ × ℕ => (v.1 ≤ w.1 → v.2 ≤ w.2) ∧ (w.1 ≤ v.1 → w.2 ≤ v.2) :=
    ⟨fun _ _ hvw => ⟨hvw.2, hvw.1⟩⟩
  exact (hboth.forall_of_forall (fun _ _ => ⟨fun _ => Nat.le_refl _, fun _ => Nat.le_refl _⟩)
    hv hw).1 h

theorem mem_windowsOf_mono {text : String} {v w : ℕ × ℕ} (hv : v ∈ windowsOf text)
    (hw : w ∈ windowsOf text) (h : v.1 ≤ w.1) : v.2 ≤ w.2 := by
  unfold windowsOf at hv hw
  split at hv
  · cases hv
  · next hlong =>
    rw [if_neg hlong] at hw
    exact bodyWindows_mono hv hw h

/-- The windows begin where the text does. -/
theorem zero_mem_windowsOf {text : String} (hw : w ∈ windowsOf text) :
    (0, windowEnd text.toList 0) ∈ windowsOf text := by
  unfold windowsOf at hw ⊢
  split at hw
  · cases hw
  · next hlong =>
    rw [if_neg hlong]
    obtain ⟨ws, hws⟩ := bodyWindows_head (show 0 < text.toList.length by omega)
    rw [hws]
    exact List.mem_cons_self

/-- Where there are windows, a block is in a chunk if and only if it is in a
window. -/
theorem kept_iff {text : String} (hb : b ∈ fencedBlocks text) (hw : w ∈ windowsOf text) :
    KeptWhole text b ↔ ∃ v ∈ windowsOf text, v.1 ≤ b.1 ∧ b.2 ≤ v.2 := by
  obtain ⟨-, hlt, hlen, hchar⟩ := mem_blocksFrom hb
  constructor
  · rintro ⟨c, hc, hstart, hstop⟩
    obtain ⟨k, hk⟩ := List.mem_iff_getElem?.mp hc
    rcases chunk_cases hk with ⟨-, rfl⟩ | ⟨-, v, hv, -, rfl⟩
    · -- the first window is longer than the opening
      refine ⟨_, zero_mem_windowsOf hw, Nat.zero_le _, ?_⟩
      have hopen : b.2 ≤ 0 + min openingChars text.toList.length := hstop
      have hbounds := windowEnd_bounds (show 0 < text.toList.length by omega)
      show b.2 ≤ windowEnd text.toList 0
      unfold openingChars at hopen
      unfold chunkTarget at hbounds
      omega
    · have hspan := span_windowChunk hv k
      refine ⟨v, hv, hstart, ?_⟩
      rw [← hspan]
      exact hstop
  · rintro ⟨v, hv, hstart, hstop⟩
    have hblank : blankWindow text.toList v = false := by
      apply decide_eq_false
      apply trim_ne_empty (c := '`') _ (by decide)
      rw [String.toList_ofList]
      exact mem_piece hchar hstart (by omega)
    obtain ⟨c, hc, rfl⟩ := chunk_of_window hv hblank
    exact ⟨c, hc, hstart, hstop⟩

/-- The last window that begins no later than a block. -/
def LastBefore (text : String) (b w : ℕ × ℕ) : Prop :=
  w ∈ windowsOf text ∧ w.1 ≤ b.1 ∧ ∀ v ∈ windowsOf text, v.1 ≤ b.1 → v.1 ≤ w.1

theorem exists_lastBefore {text : String} (hw : w ∈ windowsOf text) (hwb : w.1 ≤ b.1) :
    ∃ v, LastBefore text b v := by
  have hne : ((windowsOf text).filter fun v => v.1 ≤ b.1).toFinset.Nonempty :=
    ⟨w, by simp [hw, hwb]⟩
  obtain ⟨v, hv, hmax⟩ := Finset.exists_max_image _ Prod.fst hne
  simp only [List.mem_toFinset, List.mem_filter, decide_eq_true_eq] at hv hmax
  exact ⟨v, hv.1, hv.2, fun u hu hub => hmax u ⟨hu, hub⟩⟩

/-- **Blocks are kept whole** if and only if the last window that begins no later
than a block, where the block ends within reach of it, is the text's last one or
spares the block. -/
theorem chunkText_keeps_iff (text : String) :
    (∀ b ∈ fencedBlocks text, ∀ w ∈ windowsOf text, w.1 ≤ b.1 → b.2 ≤ w.1 + chunkMax →
        KeptWhole text b) ↔
      ∀ b ∈ fencedBlocks text, ∀ w, LastBefore text b w → b.2 ≤ w.1 + chunkMax →
        text.toList.length ≤ w.1 + chunkMax ∨ Spares text.toList w.1 b.2 := by
  constructor
  · intro h b hb w hw hreach
    by_cases hlast : text.toList.length ≤ w.1 + chunkMax
    · exact .inl hlast
    · obtain ⟨v, hv, hstart, hstop⟩ := (kept_iff hb hw.1).mp (h b hb w hw.1 hw.2.1 hreach)
      have hle := mem_windowsOf_mono hv hw.1 (hw.2.2 v hv hstart)
      have hend := (mem_windowsOf hw.1).2.2
      exact .inr ((le_windowEnd_iff (by omega) hreach).mp (by omega))
  · intro h b hb w hw hstart hreach
    obtain ⟨v, hv⟩ := exists_lastBefore hw hstart
    have hle := hv.2.2 w hw hstart
    have hreach' : b.2 ≤ v.1 + chunkMax := by omega
    refine (kept_iff hb hw).mpr ⟨v, hv.1, hv.2.1, ?_⟩
    rw [(mem_windowsOf hv.1).2.2]
    rcases h b hb v hv hreach' with hlast | hspare
    · obtain ⟨-, -, hlen, -⟩ := mem_blocksFrom hb
      rw [windowEnd_of_le hlast]
      omega
    · by_cases hlast : text.toList.length ≤ v.1 + chunkMax
      · obtain ⟨-, -, hlen, -⟩ := mem_blocksFrom hb
        rw [windowEnd_of_le hlast]
        omega
      · exact (le_windowEnd_iff (by omega) hreach').mpr hspare

/-- The first block of a window is spared where all before its end takes a byte a
character. -/
theorem spares_first {before inside rest : List Char}
    (h : firstFences? (piece chars start (start + chunkMax)) = some (before, inside, rest))
    (hbefore : utf8Len before = before.length) (hinside : utf8Len inside = inside.length) :
    Spares chars start (start + before.length + 3 + inside.length + 3) := by
  have hend : fencesEnd? (piece chars start (start + chunkMax)) =
      some (before.length + 3 + inside.length + 3) := by
    unfold fencesEnd?
    rw [h, Option.map_some, hbefore, hinside]
  have hlen := congrArg List.length (firstFences?_append h)
  have hle : before.length + 3 + inside.length + 3 ≤ chunkMax := by
    have hpiece : (piece chars start (start + chunkMax)).length ≤ start + chunkMax - start :=
      List.length_take_le _ _
    simp only [List.length_append, show fence.length = 3 from rfl] at hlen
    omega
  refine ⟨fun n hn => ?_, fun hno i hi => ?_, fun hno _ i hi => ?_⟩
  · have := Option.some.inj (hend.symm.trans hn.1)
    omega
  · have hshort : ¬ chunkTarget < before.length + 3 + inside.length + 3 :=
      fun hlong => hno _ ⟨hend, hlong, hle⟩
    have := hi.1
    omega
  · have hshort : ¬ chunkTarget < before.length + 3 + inside.length + 3 :=
      fun hlong => hno _ ⟨hend, hlong, hle⟩
    have := hi.1
    omega

/-- Six hundred accented letters, and a block with the end of a sentence in it. -/
def accents : List Char :=
  List.replicate 600 'é' ++ fence ++ List.replicate 250 'x' ++ ['.', ' '] ++
    List.replicate 100 'x' ++ fence ++ List.replicate 600 'y'

/-- The first window is broken off at the sentence: its fences count as too long. -/
theorem accents_unspared : ¬ Spares accents 0 958 := by
  intro h
  have hfences : fencesEnd? (piece accents 0 (0 + chunkMax)) = some 1558 := by decide +kernel
  have hno : ∀ n, ¬ FencesFit accents 0 n := by
    intro n hn
    have hn' := Option.some.inj (hfences.symm.trans hn.1)
    have hle := hn.2.2
    unfold chunkMax at hle
    omega
  have hline : '\n' ∉ accents := by decide +kernel
  have hlines : ∀ i, ¬ BlankIn accents 0 i := by
    intro i hi
    have hblank := hi.2.2
    unfold blankLine at hblank
    rw [Bool.and_eq_true, decide_eq_true_eq] at hblank
    exact hline (List.mem_of_getElem? hblank.1)
  have hsentence : SentenceIn accents 0 853 := ⟨by decide, by decide, by decide +kernel⟩
  exact absurd (h.sentences hno hlines 853 hsentence) (by decide)

/-- No other window has a block that begins early in the first one. -/
theorem not_kept_of_first {text : String} (hb : b ∈ fencedBlocks text)
    (hlong : 0 + chunkMax < text.toList.length) (hearly : b.1 ≤ chunkTarget - chunkOverlap)
    (hreach : b.2 ≤ 0 + chunkMax) (hspare : ¬ Spares text.toList 0 b.2) : ¬ KeptWhole text b := by
  have hpos : 0 < text.toList.length := by omega
  have hend := mt (le_windowEnd_iff hlong hreach).mp hspare
  have hmore : windowEnd text.toList 0 < text.toList.length := by
    obtain ⟨-, -, hle, -⟩ := mem_blocksFrom hb
    omega
  have hwindows : windowsOf text = (0, windowEnd text.toList 0) ::
      bodyWindows text.toList (windowEnd text.toList 0 - chunkOverlap) := by
    unfold windowsOf
    rw [if_neg, bodyWindows_more hpos hmore]
    unfold openingChars
    unfold chunkMax at hlong
    omega
  have hfirst : (0, windowEnd text.toList 0) ∈ windowsOf text := by
    rw [hwindows]
    exact List.mem_cons_self
  intro hkept
  obtain ⟨v, hv, hstart, hstop⟩ := (kept_iff hb hfirst).mp hkept
  rw [hwindows] at hv
  rcases List.mem_cons.mp hv with rfl | hv
  · exact hend hstop
  · have hnext := (next_start hpos hmore).2
    have hv := (mem_bodyWindows hv).1
    omega

/-- The block is whole in none of the chunks. -/
theorem accents_split : ¬ ∀ text, ∀ b ∈ fencedBlocks text, ∀ w ∈ windowsOf text, w.1 ≤ b.1 →
    b.2 ≤ w.1 + chunkMax → KeptWhole text b := by
  intro h
  have hblock : (600, 958) ∈ fencedBlocks (String.ofList accents) := by
    have hfirst : (firstFences? accents).map (fun p => (p.1.length, p.2.1.length)) =
        some (600, 352) := by decide +kernel
    obtain ⟨⟨before, inside, rest⟩, hp, heq⟩ := Option.map_eq_some_iff.mp hfirst
    have hbefore : before.length = 600 := congrArg Prod.fst heq
    have hinside : inside.length = 352 := congrArg Prod.snd heq
    unfold fencedBlocks
    rw [String.toList_ofList, blocksFrom_cons hp, hbefore, hinside]
    exact List.mem_cons_self
  have hlong : 0 + chunkMax < (String.ofList accents).toList.length := by
    rw [String.toList_ofList]
    decide +kernel
  have hwindow : (0, windowEnd (String.ofList accents).toList 0) ∈
      windowsOf (String.ofList accents) := by
    unfold windowsOf
    rw [if_neg (by unfold openingChars; unfold chunkMax at hlong; omega)]
    obtain ⟨ws, hws⟩ := bodyWindows_head (Nat.lt_of_le_of_lt (Nat.zero_le _) hlong)
    rw [hws]
    exact List.mem_cons_self
  refine not_kept_of_first hblock hlong (by decide) (by decide) ?_
    (h _ _ hblock _ hwindow (Nat.zero_le _) (by decide))
  rw [String.toList_ofList]
  exact accents_unspared

end PolisMemory

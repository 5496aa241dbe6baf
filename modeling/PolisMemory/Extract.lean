/-
# Finding the object in a reply

`extract_object_with_key` tries each opening brace of a reply in turn:
`matching_brace` counts braces from there, outside string literals, to the
brace's partner, and what stands between goes to the JSON parser, which is a
parameter here. The first span that parses and has the key is the answer.

`Closes d p` says what `matching_brace` reads at depth `d`: `d` balanced texts,
a closing brace behind each. A step into a literal, a brace or a plain
character keeps it (`scan_inStr`, `scan_eq_some_iff`), so from an opening
brace the loop ends at the partner if the brace has one (`matchingBrace_span`)
and nowhere else (`span_of_matchingBrace`).

Key definitions: `matchingBrace`, `extractObjectWithKey`, `Closes`, `Carries`.
Key theorems: `scan_eq_some_iff`, `extractFrom_eq_some_iff`,
`extractObjectWithKey_earliest`.
-/
import PolisMemory.JsonGrammar

namespace PolisMemory
namespace Extract

open JsonText

/-! ### The code -/

/-- The variables of `matching_brace`'s loop. -/
structure Scan where
  depth : ℤ := 0
  inStr : Bool := false
  escaped : Bool := false

/-- The loop of `matching_brace` from the character at `offset` on. A byte of a
character beyond ASCII is none of the four the loop looks for, so characters
stand for bytes. -/
def scan : List Char → ℕ → Scan → Option ℕ
  | [], _, _ => none
  | c :: rest, offset, s =>
    if s.inStr then
      if s.escaped then scan rest (offset + 1) { s with escaped := false }
      else if c = '\\' then scan rest (offset + 1) { s with escaped := true }
      else if c = '"' then scan rest (offset + 1) { s with inStr := false }
      else scan rest (offset + 1) s
    else if c = '"' then scan rest (offset + 1) { s with inStr := true }
    else if c = '{' then scan rest (offset + 1) { s with depth := s.depth + 1 }
    else if c = '}' then
      if s.depth - 1 = 0 then some offset
      else scan rest (offset + 1) { s with depth := s.depth - 1 }
    else scan rest (offset + 1) s

/-- `matching_brace`. -/
def matchingBrace (text : List Char) (start : ℕ) : Option ℕ := scan (text.drop start) start {}

variable (parse : List Char → Option Value) (key : String) (text : List Char)

/-- The body of the outer loop at an opening brace: the object from there, if it
parses and has the key. -/
def objectAt (i : ℕ) : Option Value :=
  match matchingBrace text i with
  | some last =>
    match parse ((text.drop i).take (last + 1 - i)) with
    | some v => if (v.get key).isSome then some v else none
    | none => none
  | none => none

/-- The outer loop, from `i` on; `rest` is the text from there. -/
def extractFrom : List Char → ℕ → Option Value
  | [], _ => none
  | c :: rest, i =>
    if c = '{' then
      match objectAt parse key text i with
      | some v => some v
      | none => extractFrom rest (i + 1)
    else extractFrom rest (i + 1)

/-- `extract_object_with_key`. -/
def extractObjectWithKey (text : List Char) (key : String) : Option Value :=
  extractFrom parse key text text 0

/-! ### What the brace matcher reads -/

/-- `d` balanced texts, a closing brace behind each. -/
inductive Closes : ℕ → List Char → Prop
  | last {s : List Char} : Balanced s → Closes 1 (s ++ ['}'])
  | more {d : ℕ} {s p : List Char} : Balanced s → Closes d p → Closes (d + 1) (s ++ '}' :: p)

namespace Closes

variable {d : ℕ} {s p : List Char} {c : Char}

theorem pos (h : Closes d p) : 0 < d := by cases h <;> omega

theorem length_pos (h : Closes d p) : 0 < p.length := by cases h <;> simp

/-- A balanced text in front. -/
theorem prepend (hs : Balanced s) (h : Closes d p) : Closes d (s ++ p) := by
  cases h with
  | last ht =>
    rw [← List.append_assoc]
    exact .last (hs.append ht)
  | more ht hp =>
    rw [← List.append_assoc]
    exact .more (hs.append ht) hp

theorem plain (hc : Plain c) (h : Closes d p) : Closes d (c :: p) :=
  prepend (.plain hc .nil) h

theorem literal (hs : Literal s) (h : Closes d p) : Closes d ('"' :: (s ++ '"' :: p)) := by
  have := prepend (.literal hs .nil) h
  simpa using this

/-- An opening brace in front takes the first closing brace as its partner. -/
theorem opens (h : Closes (d + 1) p) (hd : 0 < d) : Closes d ('{' :: p) := by
  cases h with
  | last ht => omega
  | @more _ s q ht hq =>
    have := prepend (.nested ht .nil) hq
    simpa using this

end Closes

/-- What is read to the end at depth `d`, outside a literal, inside one, or
behind a backslash of one. -/
def Reads (d : ℕ) (inStr escaped : Bool) (p : List Char) : Prop :=
  match inStr, escaped with
  | false, _ => Closes d p
  | true, false => ∃ s q, Literal s ∧ Closes d q ∧ p = s ++ '"' :: q
  | true, true => ∃ c s q, Literal s ∧ Closes d q ∧ p = c :: (s ++ '"' :: q)

theorem scan_literal {s : List Char} (hs : Literal s) (p : List Char) (k : ℕ) (d : ℤ) :
    scan (s ++ '"' :: p) k ⟨d, true, false⟩ = scan p (k + s.length + 1) ⟨d, false, false⟩ := by
  induction hs generalizing k with
  | nil => simp [scan]
  | plain hq hb _ ih => simp [scan, hq, hb, ih, Nat.add_comm, Nat.add_left_comm]
  | escaped _ ih =>
    simp only [List.cons_append, scan]
    simp [ih, Nat.add_right_comm, Nat.add_assoc]

/-- A balanced text is skipped, the depth being positive. -/
theorem scan_balanced {s : List Char} (hs : Balanced s) (p : List Char) (k : ℕ) {d : ℤ} (hd : 0 < d) :
    scan (s ++ p) k ⟨d, false, false⟩ = scan p (k + s.length) ⟨d, false, false⟩ := by
  induction hs generalizing p k d with
  | nil => rfl
  | @plain c t hc _ ih =>
    obtain ⟨hq, ho, hcl⟩ := hc
    simp [scan, hq, ho, hcl, ih p (k + 1) hd, Nat.add_right_comm, Nat.add_assoc]
  | @literal a b ha _ ih =>
    have happ : '"' :: (a ++ '"' :: b) ++ p = '"' :: (a ++ '"' :: (b ++ p)) := by simp
    have hlen : k + 1 + a.length + 1 + b.length = k + ('"' :: (a ++ '"' :: b)).length := by
      simp only [List.length_cons, List.length_append]
      omega
    calc scan ('"' :: (a ++ '"' :: b) ++ p) k ⟨d, false, false⟩
        = scan (a ++ '"' :: (b ++ p)) (k + 1) ⟨d, true, false⟩ := by rw [happ]; simp [scan]
      _ = scan (b ++ p) (k + 1 + a.length + 1) ⟨d, false, false⟩ := scan_literal ha _ _ _
      _ = scan p (k + 1 + a.length + 1 + b.length) ⟨d, false, false⟩ := ih p _ hd
      _ = _ := by rw [hlen]
  | @nested a b _ _ iha ihb =>
    have happ : '{' :: (a ++ '}' :: b) ++ p = '{' :: (a ++ '}' :: (b ++ p)) := by simp
    have hlen : k + 1 + a.length + 1 + b.length = k + ('{' :: (a ++ '}' :: b)).length := by
      simp only [List.length_cons, List.length_append]
      omega
    have hback : d ≠ 0 := by omega
    calc scan ('{' :: (a ++ '}' :: b) ++ p) k ⟨d, false, false⟩
        = scan (a ++ '}' :: (b ++ p)) (k + 1) ⟨d + 1, false, false⟩ := by rw [happ]; simp [scan]
      _ = scan ('}' :: (b ++ p)) (k + 1 + a.length) ⟨d + 1, false, false⟩ := iha _ _ (by omega)
      _ = scan (b ++ p) (k + 1 + a.length + 1) ⟨d, false, false⟩ := by
        rw [scan]
        simp [hback]
      _ = scan p (k + 1 + a.length + 1 + b.length) ⟨d, false, false⟩ := ihb p _ hd
      _ = _ := by rw [hlen]

/-- The loop stops at the last closing brace of what closes its depth. -/
theorem scan_closes {d : ℕ} {p : List Char} (h : Closes d p) (r : List Char) (k : ℕ) :
    scan (p ++ r) k ⟨d, false, false⟩ = some (k + p.length - 1) := by
  induction h generalizing k with
  | @last s hs =>
    rw [List.append_assoc, scan_balanced hs _ _ (by simp)]
    simp [scan]
  | @more d s p hs hp ih =>
    have hback : (((d + 1 : ℕ) : ℤ) - 1) ≠ 0 := by
      have := hp.pos
      omega
    have hdown : (((d + 1 : ℕ) : ℤ) - 1) = d := by omega
    have hlen : k + s.length + 1 + p.length - 1 = k + (s ++ '}' :: p).length - 1 := by
      simp only [List.length_cons, List.length_append]
      omega
    rw [List.append_assoc, scan_balanced hs _ _ (by omega), List.cons_append, scan]
    simp only [Bool.false_eq_true, if_false, hback]
    rw [if_neg (by decide), if_neg (by decide), if_pos trivial, hdown, ih, hlen]

/-- The next character goes in front of what is read after it. -/
theorem read_cons {R R' : List Char → Prop} {c : Char} {t : List Char} {k e : ℕ}
    (h : ∃ p r, t = p ++ r ∧ e + 1 = k + 1 + p.length ∧ R p) (hc : ∀ p, R p → R' (c :: p)) :
    ∃ p r, c :: t = p ++ r ∧ e + 1 = k + p.length ∧ R' p := by
  obtain ⟨p, r, rfl, hlen, hp⟩ := h
  refine ⟨c :: p, r, rfl, ?_, hc p hp⟩
  simp only [List.length_cons]
  omega

/-- The converse, in each state of the loop: what the loop read before it
stopped is what `Reads` says. -/
theorem reads_of_scan : ∀ (t : List Char) (k d e : ℕ) (inStr escaped : Bool), 0 < d →
    (inStr = false → escaped = false) → scan t k ⟨d, inStr, escaped⟩ = some e →
    ∃ p r, t = p ++ r ∧ e + 1 = k + p.length ∧ Reads d inStr escaped p := by
  intro t
  induction t with
  | nil =>
    intro k d e inStr escaped _ _ h
    simp [scan] at h
  | cons c t ih =>
    intro k d e inStr escaped hd hesc h
    rw [scan] at h
    cases inStr with
    | true =>
      cases escaped with
      | true =>
        simp only [if_true] at h
        apply read_cons (ih (k + 1) d e true false hd (by simp) h)
        rintro p ⟨s, q, hs, hq, rfl⟩
        exact ⟨c, s, q, hs, hq, rfl⟩
      | false =>
        simp only [if_true, Bool.false_eq_true, if_false] at h
        split_ifs at h with hb hq
        · apply read_cons (ih (k + 1) d e true true hd (by simp) h)
          rintro p ⟨c', s, q, hs, hq, rfl⟩
          exact ⟨'\\' :: c' :: s, q, .escaped hs, hq, by simp [hb]⟩
        · apply read_cons (ih (k + 1) d e false false hd (by simp) h)
          intro p hp
          exact ⟨[], p, .nil, hp, by simp [hq]⟩
        · apply read_cons (ih (k + 1) d e true false hd (by simp) h)
          rintro p ⟨s, q, hs, hcl, rfl⟩
          exact ⟨c :: s, q, .plain hq hb hs, hcl, rfl⟩
    | false =>
      obtain rfl := hesc rfl
      simp only [Bool.false_eq_true, if_false] at h
      split_ifs at h with hq ho hcl hone
      · apply read_cons (ih (k + 1) d e true false hd (by simp) h)
        rintro p ⟨s, q, hs, hp, rfl⟩
        rw [hq]
        exact hp.literal hs
      · apply read_cons (ih (k + 1) (d + 1) e false false (by omega) (by simp) h)
        intro p hp
        rw [ho]
        exact Closes.opens hp hd
      · have hd1 : d = 1 := by omega
        have hke : k = e := by simpa using h
        refine ⟨[c], t, rfl, by simp [hke], ?_⟩
        rw [hcl, hd1]
        exact Closes.last .nil
      · obtain ⟨d, rfl⟩ : ∃ d', d = d' + 1 := ⟨d - 1, by omega⟩
        have hdown : ((d + 1 : ℕ) : ℤ) - 1 = d := by omega
        rw [hdown] at h hone
        apply read_cons (ih (k + 1) d e false false (by omega) (by simp) h)
        intro p hp
        rw [hcl]
        exact Closes.more .nil hp
      · apply read_cons (ih (k + 1) d e false false hd (by simp) h)
        intro p hp
        exact Closes.plain ⟨hq, ho, hcl⟩ hp

/-! ### Spans -/

theorem Span.closes {s : List Char} (h : Span s) : ∃ p, s = '{' :: p ∧ Closes 1 p := by
  obtain ⟨b, hb, rfl⟩ := h
  exact ⟨b ++ ['}'], rfl, .last hb⟩

/-- From a span's brace the loop ends at the brace's partner. -/
theorem matchingBrace_span (pre post : List Char) {s : List Char} (h : Span s) :
    matchingBrace (pre ++ (s ++ post)) pre.length = some (pre.length + s.length - 1) := by
  obtain ⟨p, rfl, hp⟩ := Span.closes h
  have hlen : pre.length + 1 + p.length - 1 = pre.length + ('{' :: p).length - 1 := by
    simp only [List.length_cons]
    omega
  unfold matchingBrace
  rw [List.drop_left, List.cons_append, scan]
  simp only [Bool.false_eq_true, if_false]
  rw [if_neg (by decide), if_pos trivial, zero_add]
  exact (scan_closes hp post (pre.length + 1)).trans (congrArg some hlen)

/-- The loop ends nowhere else: what stands from an opening brace to the offset it
returns is a span. -/
theorem span_of_matchingBrace {pre rest : List Char} {e : ℕ}
    (h : matchingBrace (pre ++ '{' :: rest) pre.length = some e) :
    ∃ s post, '{' :: rest = s ++ post ∧ Span s ∧ e + 1 = pre.length + s.length := by
  unfold matchingBrace at h
  rw [List.drop_left, scan] at h
  simp only [Bool.false_eq_true, if_false] at h
  rw [if_neg (by decide), if_pos trivial, zero_add] at h
  obtain ⟨p, r, rfl, hlen, hp⟩ := reads_of_scan rest (pre.length + 1) 1 e false false one_pos (by simp) h
  refine ⟨'{' :: p, r, rfl, ?_, by simp only [List.length_cons]; omega⟩
  cases hp with
  | last hs => exact ⟨_, hs, rfl⟩
  | more _ hq => exact absurd hq.pos (by omega)

/-- One brace of a text opens one span at most. -/
theorem Span.unique {s s' post post' : List Char} (hs : Span s) (hs' : Span s')
    (h : s ++ post = s' ++ post') : s = s' := by
  have hlen : s.length - 1 = s'.length - 1 := by
    have hm := matchingBrace_span [] post hs
    have hm' := matchingBrace_span [] post' hs'
    rw [h, hm'] at hm
    simpa using hm.symm
  obtain ⟨p, rfl, hp⟩ := Span.closes hs
  obtain ⟨p', rfl, hp'⟩ := Span.closes hs'
  exact (List.append_inj h (by simpa using hlen)).1

/-! ### The outer loop -/

/-- A span that parses to `v`, which has the key. -/
def Carries (s : List Char) (v : Value) : Prop := Span s ∧ parse s = some v ∧ (v.get key).isSome

/-- `v` is what the earliest span of the text that parses with the key parses to. -/
def Earliest (text : List Char) (v : Value) : Prop :=
  ∃ pre s post, text = pre ++ (s ++ post) ∧ Carries parse key s v ∧
    ∀ pre' s' post' v', text = pre' ++ (s' ++ post') → Carries parse key s' v' → pre.length ≤ pre'.length

variable {parse key}

theorem Carries.brace {s : List Char} {v : Value} (h : Carries parse key s v) : ∃ p, s = '{' :: p := by
  obtain ⟨p, hp, -⟩ := Span.closes h.1
  exact ⟨p, hp⟩

theorem objectAt_eq_some_iff {pre rest : List Char} {v : Value} :
    objectAt parse key (pre ++ '{' :: rest) pre.length = some v ↔
      ∃ s post, '{' :: rest = s ++ post ∧ Carries parse key s v := by
  have hslice (s post : List Char) (e : ℕ) (happ : '{' :: rest = s ++ post)
      (he : e + 1 = pre.length + s.length) :
      ((pre ++ '{' :: rest).drop pre.length).take (e + 1 - pre.length) = s := by
    rw [List.drop_left, he, Nat.add_sub_cancel_left, happ, List.take_left]
  constructor
  · intro h
    unfold objectAt at h
    split at h
    case h_1 e hm =>
      obtain ⟨s, post, happ, hspan, he⟩ := span_of_matchingBrace hm
      rw [hslice s post e happ he] at h
      split at h
      case h_1 w hw =>
        split_ifs at h with hkey
        obtain rfl : w = v := by simpa using h
        exact ⟨s, post, happ, hspan, hw, hkey⟩
      case h_2 => simp at h
    case h_2 => simp at h
  · rintro ⟨s, post, happ, hspan, hparse, hkey⟩
    have hpos : 0 < s.length := by
      obtain ⟨p, rfl, -⟩ := Span.closes hspan
      simp
    have hm := matchingBrace_span pre post hspan
    rw [← happ] at hm
    unfold objectAt
    simp only [hm]
    rw [hslice s post _ happ (by omega)]
    simp [hparse, hkey]

/-- The body of the outer loop at any character. -/
theorem head_eq_some_iff (pre : List Char) {rest : List Char} {c : Char} {v : Value} :
    (if c = '{' then objectAt parse key (pre ++ c :: rest) pre.length else none) = some v ↔
      ∃ s post, c :: rest = s ++ post ∧ Carries parse key s v := by
  split_ifs with hc
  · subst hc
    exact objectAt_eq_some_iff
  · simp only [false_iff]
    rintro ⟨s, post, happ, hs⟩
    obtain ⟨p, rfl⟩ := hs.brace
    have : c = '{' := by simpa using congrArg List.head? happ
    exact hc this

theorem extractFrom_cons (text : List Char) (c : Char) (rest : List Char) (i : ℕ) :
    extractFrom parse key text (c :: rest) i =
      ((if c = '{' then objectAt parse key text i else none).or
        (extractFrom parse key text rest (i + 1))) := by
  rw [extractFrom]
  split_ifs
  · cases objectAt parse key text i <;> rfl
  · rfl

/-- By induction on the text left: the object at its head, or the earliest further
on. -/
theorem extractFrom_eq_some_iff (pre rest : List Char) (v : Value) :
    extractFrom parse key (pre ++ rest) rest pre.length = some v ↔ Earliest parse key rest v := by
  induction rest generalizing pre with
  | nil =>
    simp only [extractFrom, false_iff, reduceCtorEq]
    rintro ⟨p, s, post, happ, hs, -⟩
    obtain ⟨q, rfl⟩ := hs.brace
    simp at happ
  | cons c rest ih =>
    have hnext : pre ++ c :: rest = (pre ++ [c]) ++ rest := by simp
    have hlen : pre.length + 1 = (pre ++ [c]).length := by simp
    rw [extractFrom_cons]
    cases hhead : (if c = '{' then objectAt parse key (pre ++ c :: rest) pre.length else none) with
    | some w =>
      obtain ⟨s, post, happ, hs⟩ := (head_eq_some_iff pre).mp hhead
      simp only [Option.or, Option.some.injEq]
      constructor
      · rintro rfl
        exact ⟨[], s, post, happ, hs, fun _ _ _ _ _ _ => Nat.zero_le _⟩
      · rintro ⟨p, s', post', happ', hs', hmin⟩
        have hp : p.length ≤ 0 := hmin [] s post w happ hs
        obtain rfl : p = [] := List.eq_nil_of_length_eq_zero (Nat.le_zero.mp hp)
        have := (head_eq_some_iff pre).mpr ⟨s', post', happ', hs'⟩
        rw [hhead] at this
        simpa using this
    | none =>
      have hnone (s post : List Char) (w : Value) (happ : c :: rest = s ++ post) :
          ¬ Carries parse key s w := by
        intro hs
        have := (head_eq_some_iff pre).mpr ⟨s, post, happ, hs⟩
        rw [hhead] at this
        simp at this
      rw [Option.or, hnext, hlen, ih (pre ++ [c])]
      constructor
      · rintro ⟨p, s, post, rfl, hs, hmin⟩
        refine ⟨c :: p, s, post, rfl, hs, ?_⟩
        intro p' s' post' v' happ' hs'
        cases p' with
        | nil => exact absurd hs' (hnone s' post' v' happ')
        | cons c' p' =>
          have happ'' : p ++ (s ++ post) = p' ++ (s' ++ post') := by
            simpa using congrArg List.tail happ'
          have := hmin p' s' post' v' happ'' hs'
          simpa using this
      · rintro ⟨p, s, post, happ, hs, hmin⟩
        cases p with
        | nil => exact absurd hs (hnone s post v happ)
        | cons c' p =>
          have happ'' : rest = p ++ (s ++ post) := by
            simpa using congrArg List.tail happ
          refine ⟨p, s, post, happ'', hs, ?_⟩
          intro p' s' post' v' happ' hs'
          have := hmin (c :: p') s' post' v' (by rw [happ']; rfl) hs'
          simpa using this

theorem extract_eq_some_iff (text : List Char) (key : String) (v : Value) :
    extractObjectWithKey parse text key = some v ↔ Earliest parse key text v :=
  extractFrom_eq_some_iff [] text v

/-- If a span of the text carries the key, one of them starts first. -/
theorem exists_earliest {text pre s post : List Char} {v : Value} (happ : text = pre ++ (s ++ post))
    (hs : Carries parse key s v) : ∃ w, Earliest parse key text w := by
  classical
  let P (n : ℕ) : Prop :=
    ∃ pre s post v, text = pre ++ (s ++ post) ∧ Carries parse key s v ∧ pre.length = n
  have hP : ∃ n, P n := ⟨pre.length, pre, s, post, v, happ, hs, rfl⟩
  obtain ⟨p, t, q, w, happ', ht, hp⟩ := Nat.find_spec hP
  refine ⟨w, p, t, q, happ', ht, ?_⟩
  intro p' t' q' w' happ'' ht'
  rw [hp]
  exact Nat.find_min' hP ⟨p', t', q', w', happ'', ht', rfl⟩

theorem extract_eq_none_iff (text : List Char) (key : String) :
    extractObjectWithKey parse text key = none ↔
      ∀ pre s post v, text = pre ++ (s ++ post) → ¬ Carries parse key s v := by
  rw [Option.eq_none_iff_forall_not_mem]
  simp only [Option.mem_def, extract_eq_some_iff]
  constructor
  · intro h pre s post v happ hs
    obtain ⟨w, hw⟩ := exists_earliest happ hs
    exact h w hw
  · rintro h w ⟨pre, s, post, happ, hs, -⟩
    exact h pre s post w happ hs

/-- Nothing that carries a key starts in a text without an opening brace. -/
theorem earliest_of_no_brace {pre o post : List Char} {v : Value} (hpre : '{' ∉ pre)
    (ho : Carries parse key o v) : Earliest parse key (pre ++ (o ++ post)) v := by
  refine ⟨pre, o, post, rfl, ho, ?_⟩
  intro p s q w happ hs
  obtain ⟨t, rfl⟩ := hs.brace
  by_contra hlt
  have hpre' : pre = p ++ '{' :: (pre.drop (p.length + 1)) := by
    have htake : (pre ++ (o ++ post)).take pre.length = (p ++ ('{' :: t ++ q)).take pre.length := by
      rw [happ]
    rw [List.take_left, List.take_append, List.take_of_length_le (by omega)] at htake
    obtain ⟨n, hn⟩ : ∃ n, pre.length - p.length = n + 1 := ⟨pre.length - p.length - 1, by omega⟩
    rw [hn, List.cons_append, List.take_succ_cons] at htake
    have hdrop : pre.drop (p.length + 1) = (t ++ q).take n := by
      rw [htake, ← List.drop_drop, List.drop_left]
      rfl
    rw [hdrop]
    exact htake
  apply hpre
  rw [hpre']
  simp

/-! ### What the extractor returns -/

variable (parse) in
/-- The parser accepts the texts of JSON and no others. -/
def AcceptsJson : Prop := ∀ t, (∃ v, parse t = some v) ↔ Json t

/-- The extractor returns what the earliest brace span that parses with the key
parses to, and nothing if no span does; so it returns the object of a text
that has no brace in front of it. -/
theorem extractObjectWithKey_earliest (hparse : AcceptsJson parse) (text : List Char) (key : String) :
    (∀ v, extractObjectWithKey parse text key = some v ↔ Earliest parse key text v) ∧
    (extractObjectWithKey parse text key = none ↔
      ∀ pre s post v, text = pre ++ (s ++ post) → ¬ Carries parse key s v) ∧
    ∀ pre o post, text = pre ++ (o ++ post) → '{' ∉ pre → ObjectText o →
      ∃ v, parse o = some v ∧
        ((v.get key).isSome → extractObjectWithKey parse text key = some v) := by
  refine ⟨extract_eq_some_iff text key, extract_eq_none_iff text key, ?_⟩
  intro pre o post happ hpre ho
  obtain ⟨v, hv⟩ := (hparse o).mpr ho.json
  refine ⟨v, hv, ?_⟩
  intro hkey
  rw [extract_eq_some_iff, happ]
  exact earliest_of_no_brace hpre ⟨ho.span, hv, hkey⟩

/-- A parser of JSON that reads `o` as `v` and any other text as `null`. -/
noncomputable def readerOf (o : List Char) (v : Value) (t : List Char) : Option Value := by
  classical exact if Json t then some (if t = o then v else .null) else none

theorem readerOf_acceptsJson (o : List Char) (v : Value) : AcceptsJson (readerOf o v) := by
  intro t
  unfold readerOf
  by_cases ht : Json t
  · rw [if_pos ht]
    exact ⟨fun _ => ht, fun _ => ⟨_, rfl⟩⟩
  · rw [if_neg ht]
    refine ⟨?_, fun h => absurd h ht⟩
    rintro ⟨w, hw⟩
    simp at hw

/-- `{"a":"\\"}"}` -/
def quotedBrace : List Char := ['{', '"', 'a', '"', ':', '"', '\\', '"', '}', '"', '}']

theorem quotedBrace_object : ObjectText quotedBrace := by
  have hkey : StrText ['"', 'a', '"'] := ⟨['a'], .char (by decide) (by decide) (by decide) .nil, rfl⟩
  have hval : StrText ['"', '\\', '"', '}', '"'] :=
    ⟨['\\', '"', '}'], .escape (by decide) (.char (by decide) (by decide) (by decide) .nil), rfl⟩
  have hws : Ws [] := by simp [Ws]
  exact ⟨.object (.lastMember (.member hws hkey hws (.element hws (.string hval) hws))), rfl⟩

theorem extractObjectWithKey_earliest_quotedBrace : ∃ parse, AcceptsJson parse ∧
    extractObjectWithKey parse (['o', 'k', '"', ' '] ++ (quotedBrace ++ [' ', '.'])) "a" =
      some (.obj [("a", .str "\"\x7d")]) := by
  let v : Value := .obj [("a", .str "\"\x7d")]
  have hparse := readerOf_acceptsJson quotedBrace v
  have hv : readerOf quotedBrace v quotedBrace = some v := by
    simp [readerOf, quotedBrace_object.json]
  obtain ⟨-, -, h⟩ := extractObjectWithKey_earliest hparse
    (['o', 'k', '"', ' '] ++ (quotedBrace ++ [' ', '.'])) "a"
  obtain ⟨w, hw, hfound⟩ := h _ _ _ rfl (by decide) quotedBrace_object
  obtain rfl : v = w := by simpa [hv] using hw
  exact ⟨_, hparse, hfound rfl⟩

end Extract
end PolisMemory

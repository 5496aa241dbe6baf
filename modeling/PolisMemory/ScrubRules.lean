/-
# What the scrubbing rules take

No rule but the assignment's takes anything of a marker, and each of them reads
its match to the end of the word (`Clear`, `Wordlike`); a private key is between
two headers that are in no marker either (`privateKey_takes`). The assignment's
value begins in one place only after its name (`IsName.unique`).

Key definitions: `Labels`, `Clear`, `Wordlike`, `IsHeader`, `IsName`.
Key theorems: `foreign_marker`, `privateKey_takes`, `assigned_named`, `IsName.unique`.
-/
import Mathlib
import PolisMemory.Scrub

namespace PolisMemory
namespace Scrub

open Backtrack Marked

/-! ### Markers -/

theorem part_of_append_cons {u a b : List Char} {c : Char} (h : u <:+: a ++ c :: b) (hc : c ∉ u) :
    u <:+: a ∨ u <:+: b := by
  obtain ⟨s, t, h⟩ := h
  rcases List.append_eq_append_iff.mp h with ⟨z, rfl, -⟩ | ⟨z, hu, hz⟩
  · exact .inl ⟨s, z, rfl⟩
  cases z with
  | nil =>
    rw [List.append_nil] at hu
    exact .inl ⟨s, [], by rw [hu, List.append_nil]⟩
  | cons d z =>
    obtain ⟨rfl, rfl⟩ := List.cons.inj hz
    rcases List.append_eq_append_iff.mp hu with ⟨y, rfl, rfl⟩ | ⟨y, rfl, hy⟩
    · exact absurd (List.mem_append_right y List.mem_cons_self) hc
    · cases y with
      | nil =>
        rw [List.nil_append] at hy
        exact absurd (hy ▸ List.mem_cons_self) hc
      | cons e y =>
        obtain ⟨rfl, rfl⟩ := List.cons.inj hy
        exact .inr ⟨y, t, rfl⟩

theorem marker_eq (kind : String) :
    marker kind = '[' :: (['r', 'e', 'd', 'a', 'c', 't', 'e', 'd'] ++ ':' :: (kind.toList ++ [']'])) := by
  unfold marker
  generalize kind.toList = k
  simp

theorem marker_head? (kind : String) : (marker kind).head? = some '[' := by
  rw [marker_eq, List.head?_cons]

theorem marker_getLast? (kind : String) : (marker kind).getLast? = some ']' := by
  unfold marker
  generalize kind.toList = k
  rw [List.getLast?_append]
  simp

theorem kinds_short : ∀ p ∈ patterns, p.kind.toList.length ≤ 15 ∧ '-' ∉ p.kind.toList := by
  simp only [patterns, List.forall_mem_cons, privateKey, anthropicKey, openaiKey, awsAccessKey, githubToken,
    slackToken, jwt, bearer, assignedSecret]
  simp

/-- What has no bracket and no colon and is long, or has a hyphen, is in no marker. -/
theorem foreign_marker {p : Pattern} (hp : p ∈ patterns) {u : List Char} (hopen : '[' ∉ u) (hcolon : ':' ∉ u)
    (hclose : ']' ∉ u) (hu : 15 < u.length ∨ '-' ∈ u) : Foreign (marker p.kind) u := by
  refine ⟨?_, ?_, fun h => ?_⟩
  · rintro c hc
    rw [marker_head?] at hc
    cases hc
    exact hopen
  · rintro c hc
    rw [marker_getLast?] at hc
    cases hc
    exact hclose
  · obtain ⟨hlen, hdash⟩ := kinds_short p hp
    rw [marker_eq] at h
    rcases part_of_append_cons (a := []) h hopen with h | h
    · rw [List.infix_nil] at h
      subst h
      simp at hu
    rcases part_of_append_cons h hcolon with h | h
    · rcases hu with hu | hu
      · exact absurd h.length_le (by simpa using (show 8 < 15 by decide).trans hu)
      · exact absurd (h.subset hu) (by decide)
    rcases part_of_append_cons h hclose with h | h
    · rcases hu with hu | hu
      · have := h.length_le
        omega
      · exact hdash (h.subset hu)
    · rw [List.infix_nil] at h
      subst h
      simp at hu

/-- The marks are markers of the rules. -/
def Labels (ps : List Piece) : Prop :=
  ∀ label origin, .mark label origin ∈ ps → ∃ p ∈ patterns, label = marker p.kind

theorem Labels.shows {ps : List Piece} (h : Labels ps) : Shows ps := by
  intro label origin hm
  obtain ⟨p, -, rfl⟩ := h label origin hm
  rw [marker_eq]
  exact List.cons_ne_nil _ _

theorem Labels.append {ps qs : List Piece} (h : Labels (ps ++ qs)) : Labels ps ∧ Labels qs :=
  ⟨fun l o hm => h l o (List.mem_append_left qs hm), fun l o hm => h l o (List.mem_append_right ps hm)⟩

/-! ### What the rules have in common -/

/-- What a rule replaces stands apart from the words around it. -/
structure Clear (p : Pattern) : Prop where
  before : ∀ {prev n s rest}, p.named.Takes prev n (s ++ rest) → p.secret.Takes (after prev n) s rest →
    s ≠ [] ∧ ((after prev n).any isWord = true → s.head?.any isWord = false)
  next : ∀ {prev t s rest}, (p.secret.results prev t).head? = some (s, rest) →
    rest.head?.any Char.isAlphanum = true → s.getLast?.any isWord = false

/-- A rule with nothing of a marker in what it takes. -/
structure Wordlike (p : Pattern) : Prop where
  foreign : ∀ {q}, q ∈ patterns → ∀ {prev u rest}, p.whole.Takes prev u rest → Foreign (marker q.kind) u
  value : ∀ {q}, q ∈ patterns → ∀ {prev u rest}, p.secret.Takes prev u rest → Foreign (marker q.kind) u
  head : ∀ {prev u rest}, p.whole.Takes prev u rest → u.head?.any Char.isAlphanum = true

theorem isWord_of_isAlphanum {c : Char} (h : c.isAlphanum = true) : isWord c = true := by
  rw [isWord, h, Bool.true_or]

theorem or_of_isAlphanum {c : Char} {b : Bool} (h : c.isAlphanum = true) : (c.isAlphanum || b) = true := by
  rw [h, Bool.true_or]

theorem isAlphanum_of_toLower {c d : Char} (h : c.toLower = d) (hd : d.isAlphanum = true) :
    c.isAlphanum = true := by
  unfold Char.toLower at h
  split at h
  · rename_i hc
    simp only [Char.isAlphanum, Char.isAlpha, Char.isUpper, hc]
    rfl
  · rwa [h]

/-- The end of a value that is a greedy run. -/
theorem next_of_stops {p : Pattern} (hp : p.secret.Stops (·.isAlphanum = true)) {prev : Option Char}
    {t s rest : List Char} (h : (p.secret.results prev t).head? = some (s, rest))
    (hr : rest.head?.any Char.isAlphanum = true) : s.getLast?.any isWord = false := by
  cases hc : rest.head? with
  | none =>
    rw [hc] at hr
    cases hr
  | some c =>
    rw [hc] at hr
    exact absurd hr (hp.head h c hc)

/-- A rule without a name that begins at a word. -/
theorem takes_bounded {p : Pattern} {body : Re} (hn : p.named = .empty) (hs : p.secret = .seq .boundary body)
    (hb : body.Heads (·.isAlphanum = true)) {prev : Option Char} {n s rest : List Char}
    (htn : p.named.Takes prev n (s ++ rest)) (hts : p.secret.Takes (after prev n) s rest) :
    n = [] ∧ body.Takes prev s rest ∧ s.head?.any Char.isAlphanum = true ∧ prev.any isWord = false := by
  rw [hn, takes_empty] at htn
  subst htn
  rw [hs] at hts
  obtain ⟨v, w, rfl, hv, hw⟩ := takes_seq.mp hts
  obtain ⟨rfl, hbd⟩ := takes_boundary.mp hv
  obtain ⟨c, w, rfl, hc⟩ := hw.head hb
  refine ⟨rfl, hw, by simpa using hc, ?_⟩
  have hword := isWord_of_isAlphanum hc
  simpa [atBoundary, hword] using hbd

theorem clear_of_bounded {p : Pattern} {body : Re} (hn : p.named = .empty) (hs : p.secret = .seq .boundary body)
    (hb : body.Heads (·.isAlphanum = true))
    (hnext : ∀ {prev t s rest}, (p.secret.results prev t).head? = some (s, rest) →
      rest.head?.any Char.isAlphanum = true → s.getLast?.any isWord = false) : Clear p := by
  refine ⟨fun {prev n s rest} htn hts => ?_, hnext⟩
  obtain ⟨rfl, -, hhead, hprev⟩ := takes_bounded hn hs hb htn hts
  refine ⟨?_, fun h => ?_⟩
  · rintro rfl
    cases hhead
  · rw [after_nil, hprev] at h
    cases h

theorem wordlike_of_bounded {p : Pattern} {body : Re} (hn : p.named = .empty)
    (hs : p.secret = .seq .boundary body) (hb : body.Heads (·.isAlphanum = true))
    (havoids : (body.avoids '[' && body.avoids ':' && body.avoids ']') = true)
    (hlong : ∀ {prev u rest}, body.Takes prev u rest → 15 < u.length ∨ '-' ∈ u) : Wordlike p := by
  have htake : ∀ {prev u rest}, p.whole.Takes prev u rest →
      body.Takes prev u rest ∧ u.head?.any Char.isAlphanum = true := by
    intro prev u rest h
    obtain ⟨n, s, rfl, htn, hts⟩ := takes_seq.mp h
    obtain ⟨rfl, hbody, hhead, -⟩ := takes_bounded hn hs hb htn hts
    exact ⟨hbody, hhead⟩
  have hforeign : ∀ {q}, q ∈ patterns → ∀ {prev u rest}, body.Takes prev u rest → Foreign (marker q.kind) u := by
    intro q hq prev u rest h
    simp only [Bool.and_eq_true] at havoids
    exact foreign_marker hq (h.notMem havoids.1.1) (h.notMem havoids.1.2) (h.notMem havoids.2) (hlong h)
  refine ⟨fun hq _ _ _ h => hforeign hq (htake h).1, fun hq prev u rest h => ?_, fun h => (htake h).2⟩
  have hw : p.whole.Takes prev u rest := takes_seq.mpr ⟨[], u, rfl, by rw [hn]; exact takes_empty.mpr rfl, h⟩
  exact hforeign hq (htake hw).1

theorem long_of_least {r : Re} (hr : 15 < r.least) {prev : Option Char} {u rest : List Char}
    (h : r.Takes prev u rest) : 15 < u.length ∨ '-' ∈ u := .inl (hr.trans_le h.least_le)

theorem heads_lit {q : Char → Prop} {s : List Char} {c : Char} (hs : s.head? = some c) (hc : q c) :
    (Re.lit s).Heads q := by
  cases s with
  | nil => cases hs
  | cons d s =>
    obtain rfl := Option.some.inj hs
    intro e he
    rwa [eq_of_beq he]

theorem tokenChar_of_isAlphanum {c : Char} (h : c.isAlphanum = true) : tokenChar c = true := by
  simp [tokenChar, h]

/-! ### Each of them -/

theorem anthropicKey_clear : Clear anthropicKey :=
  clear_of_bounded rfl rfl (heads_lit rfl rfl) (next_of_stops (p := anthropicKey) fun _ => tokenChar_of_isAlphanum)

theorem anthropicKey_wordlike : Wordlike anthropicKey :=
  wordlike_of_bounded rfl rfl (heads_lit rfl rfl) (by decide) (long_of_least (by decide))

theorem openaiKey_clear : Clear openaiKey :=
  clear_of_bounded rfl rfl (heads_lit rfl rfl) (next_of_stops (p := openaiKey) fun _ => tokenChar_of_isAlphanum)

theorem openaiKey_wordlike : Wordlike openaiKey :=
  wordlike_of_bounded rfl rfl (heads_lit rfl rfl) (by decide) (long_of_least (by decide))

theorem jwt_clear : Clear jwt :=
  clear_of_bounded rfl rfl (heads_lit rfl rfl) (next_of_stops (p := jwt) fun _ => tokenChar_of_isAlphanum)

theorem jwt_wordlike : Wordlike jwt :=
  wordlike_of_bounded rfl rfl (heads_lit rfl rfl) (by decide) (long_of_least (by decide))

theorem awsAccessKey_heads : (Re.alt (.lit "AKIA".toList) (.lit "ASIA".toList)).Heads (·.isAlphanum = true) :=
  ⟨heads_lit rfl rfl, heads_lit rfl rfl⟩

theorem any_isWord {o : Option Char} (h : o.any Char.isAlphanum = true) : o.any isWord = true := by
  cases o with
  | none => cases h
  | some c => exact isWord_of_isAlphanum h

/-- The pattern asks for the end of the word, where the others read it to its end. -/
theorem awsAccessKey_clear : Clear awsAccessKey := by
  refine clear_of_bounded rfl rfl awsAccessKey_heads fun {prev t s rest} h hr => ?_
  obtain ⟨-, htake⟩ := mem_results.mp (List.mem_of_mem_head? h)
  obtain ⟨v, w, rfl, hv, hw⟩ := takes_seq.mp htake
  obtain ⟨k, w, rfl, hk, hw⟩ := takes_seq.mp hw
  obtain ⟨d, e, rfl, hd, he⟩ := takes_seq.mp hw
  obtain ⟨rfl, hb⟩ := takes_boundary.mp he
  have hne : d ≠ [] := by
    rintro rfl
    cases (takes_times.mp hd).2
  rw [after_of_ne_nil hne, atBoundary, any_isWord hr] at hb
  rw [List.append_nil, List.getLast?_append_of_ne_nil v (by simp [hne]), List.getLast?_append_of_ne_nil k hne]
  simpa using hb

theorem awsAccessKey_wordlike : Wordlike awsAccessKey :=
  wordlike_of_bounded rfl rfl awsAccessKey_heads (by decide) (long_of_least (by decide))

theorem githubToken_clear : Clear githubToken :=
  clear_of_bounded rfl rfl ⟨heads_lit rfl rfl, heads_lit rfl rfl⟩
    (next_of_stops (p := githubToken) ⟨fun _ h => h, fun _ => or_of_isAlphanum⟩)

theorem githubToken_wordlike : Wordlike githubToken :=
  wordlike_of_bounded rfl rfl ⟨heads_lit rfl rfl, heads_lit rfl rfl⟩ (by decide) (long_of_least (by decide))

theorem slackToken_clear : Clear slackToken :=
  clear_of_bounded rfl rfl (heads_lit rfl rfl)
    (next_of_stops (p := slackToken) fun _ => or_of_isAlphanum)

/-- A token of fifteen characters is as long as the longest kind, but has a hyphen. -/
theorem slackToken_wordlike : Wordlike slackToken := by
  refine wordlike_of_bounded rfl rfl (heads_lit rfl rfl) (by decide) fun h => .inr ?_
  obtain ⟨x, w, rfl, -, hw⟩ := takes_seq.mp h
  obtain ⟨y, w, rfl, -, hw⟩ := takes_seq.mp hw
  obtain ⟨z, w, rfl, hz, -⟩ := takes_seq.mp hw
  rw [takes_lit.mp hz]
  simp

/-! ### The rules that keep a name -/

theorem bearer_named {prev : Option Char} {n rest : List Char} (h : bearer.named.Takes prev n rest) :
    ∃ w sp, n = w ++ sp ∧ w.map Char.toLower = "bearer".toList ∧ (∀ c ∈ sp, space c = true) ∧ sp ≠ [] := by
  obtain ⟨v, w, rfl, hv, hw⟩ := takes_seq.mp h
  obtain ⟨rfl, -⟩ := takes_boundary.mp hv
  obtain ⟨w, sp, rfl, hw, hsp⟩ := takes_seq.mp hw
  obtain ⟨hsp, hne⟩ := takes_many.mp hsp
  refine ⟨w, sp, rfl, takes_word.mp hw, hsp, ?_⟩
  rintro rfl
  cases hne

theorem isWord_of_space {c : Char} (h : space c = true) : isWord c = false := by
  have hall : (['\t', '\n', '\x0b', '\x0c', '\r', ' '].all fun c => !isWord c) = true := rfl
  simpa using List.all_eq_true.mp hall c (by simpa [space] using h)

theorem any_last {q : Char → Bool} {u : List Char} (h : ∀ c ∈ u, q c = false) : u.getLast?.any q = false := by
  cases hu : u.getLast? with
  | none => rfl
  | some c => exact h c (List.mem_of_getLast? hu)

theorem bearer_clear : Clear bearer := by
  refine ⟨fun {prev n s rest} hn hs => ⟨?_, fun h => ?_⟩, next_of_stops (p := bearer) fun _ => or_of_isAlphanum⟩
  · rintro rfl
    exact absurd hs.least_le (by decide)
  · obtain ⟨w, sp, rfl, -, hsp, hne⟩ := bearer_named hn
    rw [after_append, after_of_ne_nil hne, any_last fun c hc => isWord_of_space (hsp c hc)] at h
    cases h

theorem bearer_wordlike : Wordlike bearer := by
  refine ⟨fun hq _ _ _ h => ?_, fun hq _ _ _ h => ?_, fun {prev u rest} h => ?_⟩
  · exact foreign_marker hq (h.notMem (by decide)) (h.notMem (by decide)) (h.notMem (by decide))
      (long_of_least (by decide) h)
  · exact foreign_marker hq (h.notMem (by decide)) (h.notMem (by decide)) (h.notMem (by decide))
      (long_of_least (by decide) h)
  · obtain ⟨n, s, rfl, hn, hs⟩ := takes_seq.mp h
    obtain ⟨w, sp, rfl, hw, -, -⟩ := bearer_named hn
    cases w with
    | nil => simp at hw
    | cons c w =>
      refine isAlphanum_of_toLower (c := c) (d := 'b') ?_ rfl
      simpa using (List.cons.inj (hw.trans (show _ = ['b', 'e', 'a', 'r', 'e', 'r'] by simp))).1

/-! ### The private key -/

/-- A line that opens or closes a key. -/
def IsHeader (which : String) (u : List Char) : Prop := (keyHeader which).Takes none u []

theorem free_lit (s : List Char) : (Re.lit s).free = true := by
  induction s with
  | nil => rfl
  | cons c s ih => exact ih

theorem isHeader_iff {which : String} {prev : Option Char} {u rest : List Char} :
    (keyHeader which).Takes prev u rest ↔ IsHeader which u := by
  have hfree : (keyHeader which).free = true := by
    simp only [keyHeader, Re.free, free_lit, Bool.and_self]
  exact ⟨fun h => h.of_free hfree, fun h => h.of_free hfree⟩

/-- A header is between two hyphens. -/
theorem IsHeader.ends {which : String} {u : List Char} (h : IsHeader which u) :
    u.head? = some '-' ∧ u.getLast? = some '-' := by
  obtain ⟨v, w, rfl, hv, hw⟩ := takes_seq.mp h
  obtain ⟨x, y, rfl, -, hy⟩ := takes_seq.mp hw
  rw [takes_lit.mp hv, takes_lit.mp hy]
  constructor
  · rw [String.toList_append, String.toList_append]
    simp
  · rw [← List.append_assoc, List.getLast?_append]
    simp

theorem IsHeader.ne_nil {which : String} {u : List Char} (h : IsHeader which u) : u ≠ [] := by
  rintro rfl
  cases h.ends.1

theorem IsHeader.foreign {which : String} {u : List Char} (h : IsHeader which u)
    (hw : which = "BEGIN" ∨ which = "END") {q : Pattern} (hq : q ∈ patterns) : Foreign (marker q.kind) u := by
  have hdash : '-' ∈ u := List.mem_of_mem_head? h.ends.1
  rcases hw with rfl | rfl
  · exact foreign_marker hq (h.notMem (by decide)) (h.notMem (by decide)) (h.notMem (by decide)) (.inr hdash)
  · exact foreign_marker hq (h.notMem (by decide)) (h.notMem (by decide)) (h.notMem (by decide)) (.inr hdash)

/-- A private key: from a header to a header, whatever stands between. -/
theorem privateKey_takes {prev : Option Char} {u rest : List Char} :
    privateKey.whole.Takes prev u rest ↔
      ∃ b m e, u = b ++ m ++ e ∧ IsHeader "BEGIN" b ∧ IsHeader "END" e := by
  constructor
  · intro h
    obtain ⟨n, s, rfl, hn, hs⟩ := takes_seq.mp h
    obtain rfl := takes_empty.mp hn
    obtain ⟨b, w, rfl, hb, hw⟩ := takes_seq.mp hs
    obtain ⟨m, e, rfl, -, he⟩ := takes_seq.mp hw
    exact ⟨b, m, e, by simp, isHeader_iff.mp hb, isHeader_iff.mp he⟩
  · rintro ⟨b, m, e, rfl, hb, he⟩
    refine takes_seq.mpr ⟨[], b ++ m ++ e, rfl, takes_empty.mpr rfl, ?_⟩
    refine takes_seq.mpr ⟨b, m ++ e, by simp, isHeader_iff.mpr hb, ?_⟩
    exact takes_seq.mpr ⟨m, e, rfl, takes_gap, isHeader_iff.mpr he⟩

theorem privateKey_secret {prev : Option Char} {s rest : List Char} (h : privateKey.secret.Takes prev s rest) :
    ∃ b m e, s = b ++ m ++ e ∧ IsHeader "BEGIN" b ∧ IsHeader "END" e :=
  privateKey_takes.mp (takes_seq.mpr ⟨[], s, rfl, takes_empty.mpr rfl, h⟩)

theorem privateKey_clear : Clear privateKey := by
  refine ⟨fun {prev n s rest} _ hs => ?_, fun {prev t s rest} h _ => ?_⟩
  · obtain ⟨b, m, e, rfl, hb, -⟩ := privateKey_secret hs
    refine ⟨by simp [hb.ne_nil], fun _ => ?_⟩
    rw [List.append_assoc, List.head?_append_of_ne_nil b hb.ne_nil, hb.ends.1]
    rfl
  · obtain ⟨-, hs⟩ := mem_results.mp (List.mem_of_mem_head? h)
    obtain ⟨b, m, e, rfl, -, he⟩ := privateKey_secret hs
    rw [List.getLast?_append_of_ne_nil (b ++ m) he.ne_nil, he.ends.2]
    rfl

/-! ### The assigned secret -/

/-- A name with one of the words, and what is between it and the value. -/
structure IsName (n name q w : List Char) (x : Char) (w' q' : List Char) : Prop where
  eq : n = name ++ (q ++ (w ++ (x :: (w' ++ q'))))
  chars : ∀ c ∈ name, tokenChar c = true
  letter : ∃ c ∈ name, c.toLower = 'k' ∨ c.toLower = 's'
  quoted : ∀ c ∈ q, quote c = true
  blank : ∀ c ∈ w, space c = true
  sign : x = ':' ∨ x = '='
  blank' : ∀ c ∈ w', space c = true
  quoted' : ∀ c ∈ q', quote c = true

theorem mem_toLower {w : List Char} {t : List Char} {d : Char} (h : w.map Char.toLower = t) (hd : d ∈ t) :
    ∃ c ∈ w, c.toLower = d := by
  rwa [← h, List.mem_map] at hd

theorem secretWord_letter {prev : Option Char} {u rest : List Char} (h : secretWord.Takes prev u rest) :
    ∃ c ∈ u, c.toLower = 'k' ∨ c.toLower = 's' := by
  simp only [secretWord, takes_alt, takes_seq, takes_word] at h
  rcases h with ⟨v, w, rfl, -, x, y, rfl, -, hy⟩ | hu | hu | hu | hu
  · obtain ⟨c, hc, hk⟩ := mem_toLower (d := 'k') hy (by simp)
    exact ⟨c, by simp [hc], .inl hk⟩
  · obtain ⟨c, hc, hk⟩ := mem_toLower (d := 's') hu (by simp)
    exact ⟨c, hc, .inr hk⟩
  · obtain ⟨c, hc, hk⟩ := mem_toLower (d := 'k') hu (by simp)
    exact ⟨c, hc, .inl hk⟩
  · obtain ⟨c, hc, hk⟩ := mem_toLower (d := 's') hu (by simp)
    exact ⟨c, hc, .inr hk⟩
  · obtain ⟨c, hc, hk⟩ := mem_toLower (d := 's') hu (by simp)
    exact ⟨c, hc, .inr hk⟩

theorem alphanum_of_word {w t : List Char} (h : w.map Char.toLower = t) (ht : ∀ d ∈ t, d.isAlphanum = true) :
    ∀ c ∈ w, c.isAlphanum = true := by
  rintro c hc
  exact isAlphanum_of_toLower rfl (ht _ (h ▸ List.mem_map_of_mem hc))

theorem secretWord_chars {prev : Option Char} {u rest : List Char} (h : secretWord.Takes prev u rest) :
    ∀ c ∈ u, c.isAlphanum = true ∨ c = '_' := by
  simp only [secretWord, takes_alt, takes_seq, takes_word, takes_opt, takes_lit] at h
  rcases h with ⟨v, w, rfl, hv, x, y, rfl, hx, hy⟩ | hu | hu | hu | hu
  · simp only [List.mem_append]
    rintro c (hc | hc | hc)
    · exact .inl (alphanum_of_word hv (by simp) c hc)
    · rcases hx with rfl | rfl
      · exact .inr (by simpa using hc)
      · cases hc
    · exact .inl (alphanum_of_word hy (by simp) c hc)
  · exact fun c hc => .inl (alphanum_of_word hu (by simp) c hc)
  · exact fun c hc => .inl (alphanum_of_word hu (by simp) c hc)
  · exact fun c hc => .inl (alphanum_of_word hu (by simp) c hc)
  · exact fun c hc => .inl (alphanum_of_word hu (by simp) c hc)

theorem quoted_of_takes {prev : Option Char} {u rest : List Char} (h : (Re.opt (.one quote)).Takes prev u rest) :
    ∀ c ∈ u, quote c = true := by
  rcases takes_opt.mp h with h | rfl
  · obtain ⟨d, hd, rfl⟩ := takes_one.mp h
    intro c hc
    rwa [List.mem_singleton.mp hc]
  · intro c hc
    cases hc

theorem assigned_named {prev : Option Char} {n rest : List Char} (h : assignedSecret.named.Takes prev n rest) :
    ∃ name q w x w' q', IsName n name q w x w' q' := by
  obtain ⟨v, u, rfl, hv, h⟩ := takes_seq.mp h
  obtain ⟨rfl, -⟩ := takes_boundary.mp hv
  obtain ⟨a, u, rfl, ha, h⟩ := takes_seq.mp h
  obtain ⟨k, u, rfl, hk, h⟩ := takes_seq.mp h
  obtain ⟨b, u, rfl, hb, h⟩ := takes_seq.mp h
  obtain ⟨q, u, rfl, hq, h⟩ := takes_seq.mp h
  obtain ⟨w, u, rfl, hw, h⟩ := takes_seq.mp h
  obtain ⟨x, u, rfl, hx, h⟩ := takes_seq.mp h
  obtain ⟨w', q', rfl, hw', hq'⟩ := takes_seq.mp h
  obtain ⟨x, hx, rfl⟩ := takes_one.mp hx
  obtain ⟨c, hc, hl⟩ := secretWord_letter hk
  refine ⟨a ++ k ++ b, q, w, x, w', q', ?_, ?_, ?_, quoted_of_takes hq, (takes_many.mp hw).1, ?_,
    (takes_many.mp hw').1, quoted_of_takes hq'⟩
  · simp
  · simp only [List.mem_append]
    rintro c ((hc | hc) | hc)
    · exact (takes_many.mp ha).1 c hc
    · exact (secretWord_chars hk c hc).elim tokenChar_of_isAlphanum (by rintro rfl; rfl)
    · exact (takes_many.mp hb).1 c hc
  · exact ⟨c, by simp [hc], hl⟩
  · simpa using hx

/-- What stands between a name and its value is in no word and in no marker. -/
theorem class_of_stop {c : Char} (h : space c = true ∨ quote c = true ∨ c = ':' ∨ c = '=') :
    tokenChar c = false ∧ isWord c = false ∧ c ≠ '[' := by
  have hall : (['\t', '\n', '\x0b', '\x0c', '\r', ' ', '"', '\'', ':', '='].all fun c =>
      !tokenChar c && !isWord c && c != '[') = true := rfl
  have hc : c ∈ ['\t', '\n', '\x0b', '\x0c', '\r', ' ', '"', '\'', ':', '='] := by
    simp only [space, quote, decide_eq_true_eq, Bool.or_eq_true, beq_iff_eq] at h
    simp only [List.mem_cons, List.not_mem_nil, or_false] at h ⊢
    tauto
  simpa [and_assoc] using List.all_eq_true.mp hall c hc

theorem space_of_sign {c : Char} (h : c = ':' ∨ c = '=') : space c = false := by
  rcases h with rfl | rfl <;> rfl

theorem quote_of_sign {c : Char} (h : c = ':' ∨ c = '=') : quote c = false := by
  rcases h with rfl | rfl <;> rfl

theorem space_of_quote {c : Char} (h : quote c = true) : space c = false := by
  simp only [quote, Bool.or_eq_true, beq_iff_eq] at h
  rcases h with rfl | rfl <;> rfl

theorem quote_of_space {c : Char} (h : space c = true) : quote c = false := by
  by_contra hq
  rw [Bool.not_eq_false] at hq
  rw [space_of_quote hq] at h
  cases h

theorem class_of_valueChar {c : Char} (h : valueChar c = true) : space c = false ∧ quote c = false := by
  simp only [valueChar, Bool.not_eq_true', Bool.or_eq_false_iff, decide_eq_false_iff_not, List.mem_cons,
    not_or] at h
  exact ⟨h.1, by simp [quote, h.2.1, h.2.2.1]⟩

/-- Runs of a class are told by their ends. -/
theorem run_unique {p : Char → Bool} {a b a' b' : List Char} (h : a ++ b = a' ++ b') (ha : ∀ c ∈ a, p c = true)
    (ha' : ∀ c ∈ a', p c = true) (hb : ∀ c ∈ b.head?, p c = false) (hb' : ∀ c ∈ b'.head?, p c = false) :
    a = a' ∧ b = b' := by
  have hrun : ∀ {u v : List Char}, (∀ c ∈ u, p c = true) → (∀ c ∈ v.head?, p c = false) →
      (u ++ v).takeWhile p = u := by
    intro u v hu hv
    rw [List.takeWhile_append_of_pos hu]
    cases v with
    | nil => simp
    | cons c v => rw [List.takeWhile_cons_of_neg (by simpa using hv c rfl), List.append_nil]
  have haa : a = a' := by
    calc a = (a ++ b).takeWhile p := (hrun ha hb).symm
      _ = (a' ++ b').takeWhile p := by rw [h]
      _ = a' := hrun ha' hb'
  subst haa
  exact ⟨rfl, List.append_cancel_left h⟩

theorem head?_append_of {p : Char → Bool} {u v : List Char} (hu : ∀ c ∈ u, p c = false)
    (hv : ∀ c ∈ v.head?, p c = false) : ∀ c ∈ (u ++ v).head?, p c = false := by
  cases u with
  | nil => exact hv
  | cons d u =>
    intro c hc
    cases hc
    exact hu d List.mem_cons_self

section
variable {n name q w w' q' n₁ name₁ q₁ w₁ w₁' q₁' rest rest₁ : List Char} {x x₁ : Char}

/-- A name's parts are the longest runs of their classes. -/
theorem IsName.runs (h : IsName n name q w x w' q') (hr : ∀ c ∈ rest.head?, valueChar c = true) :
    (∀ c ∈ (q ++ (w ++ (x :: (w' ++ (q' ++ rest))))).head?, tokenChar c = false) ∧
      (∀ c ∈ (w ++ (x :: (w' ++ (q' ++ rest)))).head?, quote c = false) ∧
      (∀ c ∈ (x :: (w' ++ (q' ++ rest))).head?, space c = false) ∧
      (∀ c ∈ (q' ++ rest).head?, space c = false) ∧ ∀ c ∈ rest.head?, quote c = false := by
  have hx : ∀ {p : Char → Bool} {u : List Char}, p x = false → ∀ c ∈ (x :: u).head?, p c = false := by
    rintro p u hp c hc
    cases hc
    exact hp
  refine ⟨?_, ?_, hx (space_of_sign h.sign), ?_, fun c hc => (class_of_valueChar (hr c hc)).2⟩
  · refine head?_append_of (fun c hc => (class_of_stop (.inr (.inl (h.quoted c hc)))).1) ?_
    refine head?_append_of (fun c hc => (class_of_stop (.inl (h.blank c hc))).1) ?_
    exact hx (class_of_stop (.inr (.inr h.sign))).1
  · exact head?_append_of (fun c hc => quote_of_space (h.blank c hc)) (hx (quote_of_sign h.sign))
  · exact head?_append_of (fun c hc => space_of_quote (h.quoted' c hc))
      fun c hc => (class_of_valueChar (hr c hc)).1

/-- The value does not begin in more than one place. -/
theorem IsName.unique (h : IsName n name q w x w' q') (h₁ : IsName n₁ name₁ q₁ w₁ x₁ w₁' q₁')
    (heq : n ++ rest = n₁ ++ rest₁) (hr : ∀ c ∈ rest.head?, valueChar c = true)
    (hr₁ : ∀ c ∈ rest₁.head?, valueChar c = true) : n = n₁ := by
  obtain ⟨hname, hq, hw, hw', hq'⟩ := h.runs hr
  obtain ⟨hname₁, hq₁, hw₁, hw₁', hq₁'⟩ := h₁.runs hr₁
  rw [h.eq, h₁.eq] at heq ⊢
  simp only [List.append_assoc, List.cons_append] at heq
  obtain ⟨rfl, htail⟩ := run_unique heq h.chars h₁.chars hname hname₁
  obtain ⟨rfl, hblank⟩ := run_unique htail h.quoted h₁.quoted hq hq₁
  obtain ⟨rfl, hsign⟩ := run_unique hblank h.blank h₁.blank hw hw₁
  obtain ⟨rfl, hvalue⟩ := List.cons.inj hsign
  obtain ⟨rfl, hquote⟩ := run_unique hvalue h.blank' h₁.blank' hw' hw₁'
  obtain ⟨rfl, -⟩ := run_unique hquote h.quoted' h₁.quoted' hq' hq₁'
  rfl

theorem IsName.head (h : IsName n name q w x w' q') : ∃ c u, n = c :: u ∧ tokenChar c = true := by
  obtain ⟨c, hc, -⟩ := h.letter
  cases hname : name with
  | nil =>
    rw [hname] at hc
    cases hc
  | cons d u =>
    refine ⟨d, _, by rw [h.eq, hname]; rfl, h.chars d ?_⟩
    rw [hname]
    exact List.mem_cons_self

/-- A name ends with no character of a word. -/
theorem IsName.last (h : IsName n name q w x w' q') :
    ∃ c, n.getLast? = some c ∧ isWord c = false ∧ (space c = true ∨ quote c = true ∨ c = ':' ∨ c = '=') := by
  have hmem : ∀ c ∈ x :: (w' ++ q'), space c = true ∨ quote c = true ∨ c = ':' ∨ c = '=' := by
    intro c hc
    rcases List.mem_cons.mp hc with rfl | hc
    · exact .inr (.inr h.sign)
    rcases List.mem_append.mp hc with hc | hc
    · exact .inl (h.blank' c hc)
    · exact .inr (.inl (h.quoted' c hc))
  refine ⟨(x :: (w' ++ q')).getLast (List.cons_ne_nil _ _), ?_, ?_, hmem _ (List.getLast_mem _)⟩
  · have hn : n = name ++ (q ++ w) ++ (x :: (w' ++ q')) := by rw [h.eq]; simp
    rw [hn, List.getLast?_append_of_ne_nil _ (List.cons_ne_nil _ _), List.getLast?_eq_some_getLast]
  · exact (class_of_stop (hmem _ (List.getLast_mem _))).2.1

theorem IsName.notMem_bracket (h : IsName n name q w x w' q') : '[' ∉ n := by
  intro hc
  have hstop : ∀ {c : Char}, space c = true ∨ quote c = true ∨ c = ':' ∨ c = '=' → c ≠ '[' :=
    fun hc => (class_of_stop hc).2.2
  rw [h.eq] at hc
  simp only [List.mem_append, List.mem_cons] at hc
  rcases hc with hc | hc | hc | hc | hc | hc
  · exact absurd (h.chars _ hc) (by decide)
  · exact hstop (.inr (.inl (h.quoted _ hc))) rfl
  · exact hstop (.inl (h.blank _ hc)) rfl
  · exact hstop (.inr (.inr h.sign)) hc.symm
  · exact hstop (.inl (h.blank' _ hc)) rfl
  · exact hstop (.inr (.inl (h.quoted' _ hc))) rfl

end

theorem valueChar_of_isAlphanum {c : Char} (h : c.isAlphanum = true) : valueChar c = true := by
  have hall : (['\t', '\n', '\x0b', '\x0c', '\r', ' ', '"', '\'', '\x60', ',', ';'].all
      fun c => !c.isAlphanum) = true := rfl
  by_contra hv
  have hc : c ∈ ['\t', '\n', '\x0b', '\x0c', '\r', ' ', '"', '\'', '\x60', ',', ';'] := by
    simp only [valueChar, space, Bool.not_eq_true', Bool.not_eq_false, Bool.or_eq_true, decide_eq_true_eq] at hv
    simpa [or_assoc] using hv
  have := List.all_eq_true.mp hall c hc
  simp [h] at this

theorem assignedSecret_clear : Clear assignedSecret := by
  refine ⟨fun {prev n s rest} hn hs => ⟨?_, fun h => ?_⟩,
    next_of_stops (p := assignedSecret) fun _ => valueChar_of_isAlphanum⟩
  · rintro rfl
    exact absurd hs.least_le (by decide)
  · obtain ⟨_, _, _, _, _, _, hname⟩ := assigned_named hn
    obtain ⟨c, hc, hw, -⟩ := hname.last
    have hne : n ≠ [] := by
      rintro rfl
      cases hc
    rw [after_of_ne_nil hne, hc, Option.any_some, hw] at h
    cases h

end Scrub
end PolisMemory

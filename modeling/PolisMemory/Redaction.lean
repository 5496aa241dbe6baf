/-
# What a rule leaves

A rule that matches nowhere in a text matches nowhere after a later rule either:
what it could take there was there before (`Wordlike.quiet`, `privateKey_quiet`).
On its own text a rule leaves no match, and the assignment only such as it skips
(`assigned_again`). No rule cuts a marker that was there (`Fits`).

Key definitions: `Quiet`, `Apart`, `QuietFrom`, `Fits`, `SamePlace`.
Key theorems: `Wordlike.quiet`, `privateKey_quiet`, `bearer_quietKept`, `assignedSecret_fits`, `assigned_again`.
-/
import PolisMemory.ScrubRules

namespace PolisMemory
namespace Scrub

open Backtrack Marked

/-! ### Rules that match nowhere -/

def Quiet (p : Pattern) (t : List Char) : Prop :=
  ∀ x u y, t = x ++ u ++ y → ¬ p.whole.Takes (after none x) u y

/-- The marks stand apart from the words around them. -/
structure Apart (qs : List Piece) : Prop where
  labels : Labels qs
  before : ∀ xs label origin ys, qs = xs ++ .mark label origin :: ys → origin ≠ [] ∧
    ((after none (source xs)).any isWord = true → origin.head?.any isWord = false)
  next : ∀ xs label origin ys, qs = xs ++ .mark label origin :: ys →
    (source ys).head?.any Char.isAlphanum = true → origin.getLast?.any isWord = false

/-- The rule takes nothing of the source that is kept whole. -/
def QuietKept (p : Pattern) (qs : List Piece) : Prop :=
  ∀ xs u ys, qs = xs ++ plains u ++ ys → ¬ p.whole.Takes (after none (source xs)) u (source ys)

/-- The rule takes nothing of the source from a character that is kept. -/
def QuietFrom (p : Pattern) (qs : List Piece) : Prop :=
  ∀ xs c ys, qs = xs ++ .plain c :: ys →
    ∀ u y, c :: source ys = u ++ y → ¬ p.whole.Takes (after none (source xs)) u y

theorem QuietFrom.kept {p : Pattern} {qs : List Piece} (h : QuietFrom p qs) : QuietKept p qs := by
  intro xs u ys hq htake
  cases u with
  | nil => exact p.whole_ne_nil htake rfl
  | cons c u =>
    refine h xs c (plains u ++ ys) (by simpa using hq) (c :: u) (source ys) (by simp) htake

theorem Quiet.from {p : Pattern} {qs : List Piece} (h : Quiet p (source qs)) : QuietFrom p qs := by
  intro xs c ys hq u y hu
  refine h (source xs) u y ?_
  rw [hq, source_append, source_cons, Piece.source, List.singleton_append, hu, List.append_assoc]

/-- A rule with nothing of a marker in what it takes matches nowhere in the
rendering, if nowhere in what is kept. -/
theorem Wordlike.quiet {p : Pattern} {qs : List Piece} (hp : Wordlike p) (ha : Apart qs)
    (h : QuietKept p qs) : Quiet p (render qs) := by
  intro x u y hq htake
  obtain ⟨xs, ys, rfl, rfl, rfl⟩ := kept_of_foreign hq ha.labels.shows fun label origin hm => by
    obtain ⟨q, hmem, rfl⟩ := ha.labels label origin hm
    exact hp.foreign hmem htake
  have hhead := hp.head htake
  refine h xs u ys rfl (htake.congr_ends (p.whole_ne_nil htake) (fun hb => ?_) fun hb => ?_)
  · -- a marker ends in no word, and what it stands for ends in none before a letter
    rcases List.eq_nil_or_concat xs with rfl | ⟨xs, z, rfl⟩
    · exact hb
    rw [List.concat_eq_append] at *
    cases z with
    | plain c => simpa [Piece.source, Piece.render] using hb
    | mark label origin =>
      obtain ⟨q, -, rfl⟩ := ha.labels label origin (by simp)
      have hu : (source (plains u ++ ys)).head? = u.head? := by
        rw [source_append, source_plains, List.head?_append_of_ne_nil u (p.whole_ne_nil htake)]
      have hnext := ha.next xs (marker q.kind) origin (plains u ++ ys) (by simp) (by rw [hu]; exact hhead)
      have hne := (ha.before xs (marker q.kind) origin (plains u ++ ys) (by simp)).1
      have hlast : after none (source (xs ++ [.mark (marker q.kind) origin])) = origin.getLast? := by
        rw [source_append, source_cons, source_nil, List.append_nil]
        exact after_append_of_ne_nil hne none (source xs)
      rw [atBoundary_iff, hlast, hnext, any_isWord hhead]
      exact Bool.false_ne_true
  · cases ys with
    | nil => exact hb
    | cons z ys =>
      cases z with
      | plain c => exact hb
      | mark label origin =>
        obtain ⟨q, -, rfl⟩ := ha.labels label origin (by simp)
        obtain ⟨hne, hbefore⟩ := ha.before (xs ++ plains u) (marker q.kind) origin ys (by simp)
        have hlast : after none (source (xs ++ plains u)) = u.getLast? := by
          rw [source_append, source_plains]
          exact after_append_of_ne_nil (p.whole_ne_nil htake) none (source xs)
        have hopen : (render (.mark (marker q.kind) origin :: ys)).head? = some '[' := by
          rw [render_cons, Piece.render, marker_eq]
          rfl
        have hword : u.getLast?.any isWord = true := by
          rw [hopen, atBoundary_iff] at hb
          exact (Bool.not_eq_false _).mp hb
        have horigin : (source (.mark (marker q.kind) origin :: ys)).head? = origin.head? :=
          List.head?_append_of_ne_nil origin hne
        rw [atBoundary_iff, hword, horigin, hbefore (by rw [hlast]; exact hword)]
        exact Bool.false_ne_true.symm

/-- A private key is nowhere in the rendering, if none begins in what is kept. -/
theorem privateKey_quiet {qs : List Piece} (hl : Labels qs) (h : QuietFrom privateKey qs) :
    Quiet privateKey (render qs) := by
  intro x u y hq htake
  obtain ⟨b, m, e, rfl, hb, he⟩ := privateKey_takes.mp htake
  have hforeign : ∀ {which u}, IsHeader which u → (which = "BEGIN" ∨ which = "END") → ∀ {ps : List Piece},
      Labels ps → ∀ label origin, .mark label origin ∈ ps → Foreign label u := by
    intro which u hu hw _ hps label origin hm
    obtain ⟨q, hmem, rfl⟩ := hps label origin hm
    exact hu.foreign hw hmem
  have hq' : render qs = x ++ b ++ (m ++ e ++ y) := by rw [hq]; simp
  obtain ⟨xs, zs, rfl, rfl, hz⟩ := kept_of_foreign hq' hl.shows (hforeign hb (.inl rfl) hl)
  have hzs : Labels zs := hl.append.2
  obtain ⟨ms, ys, rfl, -, rfl⟩ := kept_of_foreign hz hzs.shows (hforeign he (.inr rfl) hzs)
  obtain ⟨c, b', rfl⟩ := List.exists_cons_of_ne_nil hb.ne_nil
  refine h xs c (plains b' ++ (ms ++ plains e ++ ys)) (by simp) (c :: b' ++ source ms ++ e) (source ys) ?_ ?_
  · simp
  · exact privateKey_takes.mpr ⟨c :: b', source ms, e, rfl, hb, he⟩

/-! ### The rule's own stage -/

theorem apart_pieces {p : Pattern} (hp : p ∈ patterns) (hc : Clear p) {t : List Char} {tokens : List Token}
    (h : Scan p none t tokens) : Apart (tokens.flatMap p.pieces) := by
  refine ⟨fun label origin hm => ?_, fun xs label origin ys hq => ?_, fun xs label origin ys hq hn => ?_⟩
  · obtain ⟨xs, ys, hq⟩ := List.append_of_mem hm
    obtain ⟨as, n, bs, -, -, -, hl, -⟩ := mark_at hq
    exact ⟨p, hp, hl⟩
  · obtain ⟨as, n, bs, rfl, rfl, -, -, -⟩ := mark_at hq
    obtain ⟨htn, hts⟩ := takes_of_match? h.match_at
    have := hc.before htn hts
    rw [← after_append] at this
    rwa [source_append, source_pieces, source_plains]
  · obtain ⟨as, n, bs, rfl, -, rfl, -, -⟩ := mark_at hq
    rw [source_pieces] at hn
    obtain ⟨rest, hrest, -, hhead⟩ := match?_some h.match_at
    rw [List.append_cancel_left hrest] at hn
    exact hc.next hhead hn

/-- Where the pieces keep a character, it is between the matches or in a name. -/
theorem plain_at {p : Pattern} {tokens : List Token} (hr : ∀ n s, .found n s ∈ tokens → p.redacts s = true)
    {xs ys : List Piece} {c : Char} (h : tokens.flatMap p.pieces = xs ++ .plain c :: ys) :
    (∃ as bs, tokens = as ++ .text c :: bs ∧ xs = as.flatMap p.pieces ∧ ys = bs.flatMap p.pieces) ∨
      ∃ as n s bs u v, tokens = as ++ .found n s :: bs ∧ n = u ++ c :: v ∧ xs = as.flatMap p.pieces ++ plains u ∧
        ys = plains v ++ .mark (marker p.kind) s :: bs.flatMap p.pieces := by
  induction tokens generalizing xs with
  | nil => exact absurd h (by simp)
  | cons tok tokens ih =>
    have hr' : ∀ n s, .found n s ∈ tokens → p.redacts s = true := fun n s hm => hr n s (List.mem_cons_of_mem _ hm)
    have hgo : ∀ {zs}, xs = p.pieces tok ++ zs → tokens.flatMap p.pieces = zs ++ .plain c :: ys →
        (∃ as bs, tok :: tokens = as ++ .text c :: bs ∧ xs = as.flatMap p.pieces ∧ ys = bs.flatMap p.pieces) ∨
          ∃ as n s bs u v, tok :: tokens = as ++ .found n s :: bs ∧ n = u ++ c :: v ∧
            xs = as.flatMap p.pieces ++ plains u ∧ ys = plains v ++ .mark (marker p.kind) s :: bs.flatMap p.pieces := by
      rintro zs rfl hz
      rcases ih hr' hz with ⟨as, bs, rfl, rfl, rfl⟩ | ⟨as, n, s, bs, u, v, rfl, rfl, rfl, rfl⟩
      · exact .inl ⟨tok :: as, bs, rfl, by simp, rfl⟩
      · exact .inr ⟨tok :: as, _, s, bs, u, v, rfl, rfl, by simp, rfl⟩
    rw [List.flatMap_cons] at h
    rcases List.append_eq_append_iff.mp h with ⟨zs, hx, hz⟩ | ⟨zs, hp, hz⟩
    · exact hgo hx hz
    cases zs with
    | nil => exact @hgo [] (by simpa using hp.symm) hz.symm
    | cons z zs =>
      obtain ⟨rfl, rfl⟩ := List.cons.inj hz
      cases tok with
      | text d =>
        cases xs with
        | nil =>
          obtain ⟨hd, rfl⟩ := List.cons.inj hp
          cases hd
          exact .inl ⟨[], tokens, rfl, rfl, rfl⟩
        | cons x xs => simp [Pattern.pieces] at hp
      | found n s =>
        rw [Pattern.pieces, if_pos (hr n s List.mem_cons_self)] at hp
        obtain ⟨u, v, rfl, rfl, rfl⟩ := plain_before_mark hp
        exact .inr ⟨[], _, s, tokens, u, v, rfl, rfl, rfl, by simp⟩

theorem redacts_of_nothing {p : Pattern} (hk : p.keep = .nothing) (s : List Char) : p.redacts s = true := by
  rw [Pattern.redacts, hk]

/-- A rule that keeps no name matches nowhere from what it leaves. -/
theorem quietFrom_pieces {p : Pattern} (hk : p.keep = .nothing) (hn : p.named = .empty) {t : List Char}
    {tokens : List Token} (h : Scan p none t tokens) : QuietFrom p (tokens.flatMap p.pieces) := by
  intro xs c ys hq u y hu
  rcases plain_at (fun _ s _ => redacts_of_nothing hk s) hq with
    ⟨as, bs, rfl, rfl, rfl⟩ | ⟨as, _, s, bs, v, w, rfl, rfl, -, -⟩
  · rw [source_pieces] at hu ⊢
    exact match?_eq_none.mp h.none_at u y hu
  · have htake := (takes_of_match? h.match_at).1
    rw [hn, takes_empty] at htake
    simp at htake

theorem bearer_redacts {t : List Char} {tokens : List Token} (h : Scan bearer none t tokens) :
    ∀ n s, .found n s ∈ tokens → bearer.redacts s = true := by
  intro n s hm
  obtain ⟨as, bs, rfl⟩ := List.append_of_mem hm
  have hopen := (takes_of_match? h.match_at).2.notMem (c := '[') (by decide)
  exact redacts_of_head fun hc => hopen (List.mem_of_mem_head? hc)

theorem bearerChar_of_space {c : Char} (h : space c = true) : bearerChar c = false := by
  have hall : (['\t', '\n', '\x0b', '\x0c', '\r', ' '].all fun c => !bearerChar c) = true := rfl
  simpa using List.all_eq_true.mp hall c (by simpa [space] using h)

/-- The header that a bearer's token leaves behind has no token any more: it has
six characters of the kind, and a token sixteen. -/
theorem bearer_quietKept {t : List Char} {tokens : List Token} (h : Scan bearer none t tokens) :
    QuietKept bearer (tokens.flatMap bearer.pieces) := by
  intro xs u ys hq htake
  obtain ⟨c, u, rfl⟩ := List.exists_cons_of_ne_nil (bearer.whole_ne_nil htake)
  rw [plains_cons, List.append_assoc, List.cons_append] at hq
  rcases plain_at (bearer_redacts h) hq with ⟨as, bs, rfl, rfl, hys⟩ | ⟨as, n, s, bs, v, w, rfl, rfl, rfl, hys⟩
  · have hbs : textOf bs = u ++ source ys := by rw [← source_pieces bearer, ← hys]; simp
    rw [source_pieces] at htake
    exact match?_eq_none.mp h.none_at (c :: u) (source ys) (by rw [hbs]; rfl) htake
  · obtain ⟨zs, hw, -⟩ := mark_after_plains hys
    have hw : w = u ++ source zs := by simpa using congrArg source hw
    obtain ⟨word, sp, hn, hword, hsp, -⟩ := bearer_named (takes_of_match? h.match_at).1
    obtain ⟨n', s', hu, -, hs'⟩ := takes_seq.mp htake
    obtain ⟨hs', hlen⟩ := takes_many.mp hs'
    have hmany : 16 ≤ (c :: u).countP bearerChar := by
      rw [hu, List.countP_append, List.countP_eq_length.mpr hs']
      omega
    have hfew : (v ++ c :: w).countP bearerChar ≤ 6 := by
      have hsix : word.length = 6 := by
        rw [← List.length_map (f := Char.toLower), hword]
        simp
      have hnone : sp.countP bearerChar = 0 :=
        List.countP_eq_zero.mpr fun d hd => by simp [bearerChar_of_space (hsp d hd)]
      rw [hn, List.countP_append, hnone, Nat.add_zero, ← hsix]
      exact List.countP_le_length
    rw [hw, ← List.cons_append, List.countP_append, List.countP_append] at hfew
    omega

/-! ### The marks of the rules before -/

/-- The rule cuts no marker that was there. -/
def Fits (p : Pattern) : Prop :=
  ∀ {ps : List Piece} {tokens : List Token}, Labels ps → Scan p none (render ps) tokens →
    Aligned ps (tokens.flatMap p.pieces)

theorem fits_of_ends {p : Pattern} (hp : ∀ {prev s rest}, p.secret.Takes prev s rest →
    ∃ b e, b <+: s ∧ e <:+ s ∧ ∀ q ∈ patterns, Foreign (marker q.kind) b ∧ Foreign (marker q.kind) e) :
    Fits p := by
  intro ps tokens hl h xs label origin ys hq
  obtain ⟨as, n, bs, rfl, rfl, rfl, -, -⟩ := mark_at hq
  have ht : render ps = textOf as ++ n ++ origin ++ textOf bs := by
    rw [← h.textOf_eq]
    simp [Token.source]
  obtain ⟨b, e, hb, he, hf⟩ := hp (takes_of_match? h.match_at).2
  have hforeign : ∀ l o, .mark l o ∈ ps → Foreign l b ∧ Foreign l e := by
    intro l o hm
    obtain ⟨q, hmem, rfl⟩ := hl l o hm
    exact hf q hmem
  obtain ⟨qs, ms, rs, hps, hx, hm, hy⟩ := stretch_of_foreign ht hb he (fun l o hm => (hforeign l o hm).1)
    fun l o hm => (hforeign l o hm).2
  refine ⟨qs, ms, rs, hps, ?_, hm, ?_⟩
  · rw [hx, source_append, source_pieces, source_plains]
  · rw [hy, source_pieces]

theorem Wordlike.fits {p : Pattern} (hp : Wordlike p) : Fits p :=
  fits_of_ends fun {_ s _} h =>
    ⟨s, s, List.prefix_rfl, List.suffix_rfl, fun _ hq => ⟨hp.value hq h, hp.value hq h⟩⟩

theorem privateKey_fits : Fits privateKey := by
  refine fits_of_ends fun {_ s _} h => ?_
  obtain ⟨b, m, e, rfl, hb, he⟩ := privateKey_secret h
  exact ⟨b, e, ⟨m ++ e, by simp⟩, ⟨b ++ m, rfl⟩,
    fun _ hq => ⟨hb.foreign (.inl rfl) hq, he.foreign (.inr rfl) hq⟩⟩

theorem kinds_word : ∀ p ∈ patterns, ∀ c ∈ p.kind.toList, isWord c = true := by
  simp only [patterns, List.forall_mem_cons, privateKey, anthropicKey, openaiKey, awsAccessKey, githubToken,
    slackToken, jwt, bearer, assignedSecret]
  simp [isWord]

theorem valueChar_of_isWord {c : Char} (h : isWord c = true) : valueChar c = true := by
  rw [isWord, Bool.or_eq_true, beq_iff_eq] at h
  rcases h with h | rfl
  · exact valueChar_of_isAlphanum h
  · rfl

theorem valueChar_of_tokenChar {c : Char} (h : tokenChar c = true) : valueChar c = true := by
  rw [tokenChar, Bool.or_eq_true, beq_iff_eq] at h
  rcases h with h | rfl
  · exact valueChar_of_isWord h
  · rfl

/-- A marker is a value. -/
theorem marker_value {p : Pattern} (hp : p ∈ patterns) : ∀ c ∈ marker p.kind, valueChar c = true := by
  have hred : (['r', 'e', 'd', 'a', 'c', 't', 'e', 'd'].all valueChar) = true := rfl
  intro c hc
  rw [marker_eq] at hc
  rcases List.mem_cons.mp hc with rfl | hc
  · rfl
  rcases List.mem_append.mp hc with hc | hc
  · exact List.all_eq_true.mp hred c hc
  rcases List.mem_cons.mp hc with rfl | hc
  · rfl
  rcases List.mem_append.mp hc with hc | hc
  · exact valueChar_of_isWord (kinds_word p hp c hc)
  · rw [List.mem_singleton.mp hc]
    rfl

/-- A name with its sign is in no marker: the letters of its word stand after
the colon there, and the sign would be the colon. -/
theorem IsName.notIn_marker {n name q w w' q' : List Char} {x : Char} (h : IsName n name q w x w' q')
    {p : Pattern} (hp : p ∈ patterns) : ¬ n <:+: marker p.kind := by
  intro hinf
  obtain ⟨c, hc, hletter⟩ := h.letter
  have htwo : List.Sublist [c, x] n := by
    rw [h.eq]
    exact (List.singleton_sublist.mpr hc).append (List.singleton_sublist.mpr (by simp))
  have hsplit : marker p.kind =
      ['[', 'r', 'e', 'd', 'a', 'c', 't', 'e', 'd', ':'] ++ (p.kind.toList ++ [']']) := marker_eq p.kind
  have hfront : (['[', 'r', 'e', 'd', 'a', 'c', 't', 'e', 'd', ':'].all fun c =>
      !(c.toLower == 'k' || c.toLower == 's')) = true := rfl
  have hsub := htwo.trans hinf.sublist
  rw [hsplit, List.sublist_append_iff] at hsub
  obtain ⟨l, l', hl, hl₁, hl₂⟩ := hsub
  cases l with
  | nil =>
    have hx : x ∈ p.kind.toList ++ [']'] := hl₂.subset (by rw [List.nil_append] at hl; rw [← hl]; simp)
    rcases List.mem_append.mp hx with hx | hx
    · have := (class_of_stop (.inr (.inr h.sign))).2.1
      rw [kinds_word p hp x hx] at this
      cases this
    · rcases h.sign with rfl | rfl <;> simp at hx
  | cons d l =>
    obtain ⟨rfl, -⟩ := List.cons.inj hl
    have := List.all_eq_true.mp hfront c (hl₁.subset List.mem_cons_self)
    rcases hletter with hk | hk <;> simp [hk] at this

theorem assignedSecret_next {prev : Option Char} {n s rest : List Char}
    (h : assignedSecret.match? prev (n ++ s ++ rest) = some (n, s)) : ∀ c ∈ rest.head?, valueChar c = false := by
  obtain ⟨rest', hrest, -, hs⟩ := match?_some h
  obtain rfl := List.append_cancel_left hrest
  have hstop : assignedSecret.secret.Stops (valueChar · = true) := fun _ hc => hc
  exact fun c hc => by simpa using hstop.head hs c hc

theorem assignedSecret_fits : Fits assignedSecret := by
  intro ps tokens hl h xs label origin ys hq
  obtain ⟨as, n, bs, rfl, rfl, rfl, -, -⟩ := mark_at hq
  have ht : render ps = (textOf as ++ n) ++ (origin ++ textOf bs) := by
    rw [← h.textOf_eq]
    simp [Token.source]
  have hm := h.match_at
  obtain ⟨_, _, _, _, _, _, hname⟩ := assigned_named (takes_of_match? hm).1
  rw [source_append, source_pieces, source_pieces, source_plains]
  rcases cut ht with ⟨qs, ts, rfl, hx, hts⟩ | ⟨qs, l, o, rs, u, v, rfl, rfl, hu, -, hx, -⟩
  · have hlt := hl.append.2
    rcases cut hts with ⟨ms, rs, rfl, hms, hrs⟩ | ⟨ms, l, o, rs, u, v, rfl, rfl, -, hv, -, hy⟩
    · exact ⟨qs, ms, rs, by simp, hx, hms, hrs⟩
    · -- the value does not end inside of a marker, which has only characters of values
      obtain ⟨q, hq, hlabel⟩ := hlt (u ++ v) o (by simp)
      obtain ⟨c, v, rfl⟩ := List.exists_cons_of_ne_nil hv
      have hc := assignedSecret_next hm c (by rw [hy]; rfl)
      rw [marker_value hq c (by rw [← hlabel]; simp)] at hc
      cases hc
  · -- the name does not reach into a marker
    obtain ⟨q, hq, hlabel⟩ := hl (u ++ v) o (by simp)
    rcases List.append_eq_append_iff.mp hx with ⟨z, -, rfl⟩ | ⟨z, -, rfl⟩
    · refine absurd ?_ hname.notMem_bracket
      obtain ⟨c, u, rfl⟩ := List.exists_cons_of_ne_nil hu
      rw [marker_eq] at hlabel
      obtain rfl : c = '[' := (List.cons.inj hlabel).1
      simp
    · refine absurd ?_ (hname.notIn_marker hq)
      rw [← hlabel]
      exact ⟨z, v, rfl⟩

/-! ### The assignment on its own text -/

/-- The text before the place is the same, or no name can begin there. -/
def SamePlace (prev prev' : Option Char) (t : List Char) : Prop :=
  prev' = prev ∨ ∀ c ∈ t.head?, valueChar c = false

/-- A name depends on the text around by the boundary before it. -/
theorem SamePlace.takes {prev prev' : Option Char} {n rest rest' t : List Char} (hp : SamePlace prev prev' t)
    (ht : t.head? = n.head?) (h : assignedSecret.named.Takes prev n rest) :
    assignedSecret.named.Takes prev' n rest' := by
  obtain ⟨_, _, _, _, _, _, hname⟩ := assigned_named h
  obtain ⟨c, u, rfl, hc⟩ := hname.head
  obtain rfl := hp.resolve_right fun hv => by
    have := hv c (by rw [ht]; rfl)
    rw [valueChar_of_tokenChar hc] at this
    cases this
  obtain ⟨v, w, hvw, hv, hw⟩ := takes_seq.mp h
  obtain ⟨rfl, hbd⟩ := takes_boundary.mp hv
  rw [List.nil_append] at hvw
  subst hvw
  exact takes_seq.mpr ⟨[], c :: u, rfl, takes_boundary.mpr ⟨rfl, hbd⟩, hw.of_free rfl⟩

/-- The marks of the assignment stand for values. -/
theorem assigned_origin {prev : Option Char} {t : List Char} {tokens : List Token}
    (h : Scan assignedSecret prev t tokens) {label origin : List Char}
    (hm : .mark label origin ∈ tokens.flatMap assignedSecret.pieces) :
    (∀ c ∈ origin, valueChar c = true) ∧ 16 ≤ origin.length := by
  obtain ⟨xs, ys, hq⟩ := List.append_of_mem hm
  obtain ⟨as, n, bs, rfl, -, -, -, -⟩ := mark_at hq
  exact takes_many.mp (takes_of_match? h.match_at).2

/-- Where a value is in the rendering there is one in the source. -/
theorem value_under {qs : List Piece} {s rest : List Char}
    (hq : ∀ label origin, .mark label origin ∈ qs → (∀ c ∈ origin, valueChar c = true) ∧ 16 ≤ origin.length)
    (h : render qs = s ++ rest) (hs : ∀ c ∈ s, valueChar c = true) (hlen : 16 ≤ s.length) :
    ∃ s' rest', source qs = s' ++ rest' ∧ (∀ c ∈ s', valueChar c = true) ∧ 16 ≤ s'.length := by
  rcases plains_or_mark qs with ⟨u, rfl⟩ | ⟨u, label, origin, qs, rfl⟩
  · exact ⟨s, rest, by rwa [source_plains, ← render_plains u], hs, hlen⟩
  rw [render_append, render_plains] at h
  rcases List.append_eq_append_iff.mp h with ⟨z, rfl, -⟩ | ⟨z, rfl, -⟩
  · obtain ⟨ho, hl⟩ := hq label origin (by simp)
    refine ⟨u ++ origin, source qs, by simp [Piece.source], ?_, ?_⟩
    · intro c hc
      rcases List.mem_append.mp hc with hc | hc
      · exact hs c (List.mem_append_left z hc)
      · exact ho c hc
    · rw [List.length_append]
      omega
  · exact ⟨s, z ++ (origin ++ source qs), by simp [Piece.source], hs, hlen⟩

/-- A value that is long enough and not to be redacted is found in its place. -/
theorem assigned_match {prev : Option Char} {n v rest : List Char}
    (hn : assignedSecret.named.Takes prev n (v ++ rest)) (hv : ∀ c ∈ v, valueChar c = true) (hlen : 16 ≤ v.length)
    (hr : ∀ c ∈ rest.head?, valueChar c = false) :
    assignedSecret.match? prev (n ++ v ++ rest) = some (n, v) := by
  have htake : assignedSecret.whole.Takes prev (n ++ v) rest :=
    takes_seq.mpr ⟨n, v, rfl, hn, takes_many.mpr ⟨hv, hlen⟩⟩
  cases hm : assignedSecret.match? prev (n ++ v ++ rest) with
  | none => exact absurd htake (match?_eq_none.mp hm (n ++ v) rest rfl)
  | some x =>
    obtain ⟨n₁, v₁⟩ := x
    obtain ⟨rest₁, ht, -, -⟩ := match?_some hm
    rw [ht] at hm
    obtain ⟨htn, htv⟩ := takes_of_match? hm
    obtain ⟨hv₁, hlen₁⟩ := takes_many.mp htv
    obtain ⟨_, _, _, _, _, _, hname⟩ := assigned_named hn
    obtain ⟨_, _, _, _, _, _, hname₁⟩ := assigned_named htn
    rw [List.append_assoc, List.append_assoc] at ht
    have hhead : ∀ {s r : List Char}, (∀ c ∈ s, valueChar c = true) → 16 ≤ s.length →
        ∀ c ∈ (s ++ r).head?, valueChar c = true := by
      intro s r hs hl c hc
      cases s with
      | nil => cases hl
      | cons d s =>
        obtain rfl : d = c := by simpa using hc
        exact hs d List.mem_cons_self
    obtain rfl := hname.unique hname₁ ht (hhead hv hlen) (hhead hv₁ hlen₁)
    obtain ⟨rfl, -⟩ := run_unique (List.append_cancel_left ht) hv hv₁ hr (assignedSecret_next hm)
    rfl

theorem assigned_head {prev : Option Char} {n rest : List Char} (h : assignedSecret.named.Takes prev n rest) :
    n ≠ [] := by
  obtain ⟨_, _, _, _, _, _, hname⟩ := assigned_named h
  obtain ⟨c, u, rfl, -⟩ := hname.head
  exact List.cons_ne_nil c u

/-- What the assignment leaves begins as the text did. -/
theorem head_render {prev : Option Char} {t : List Char} {tokens : List Token}
    (h : Scan assignedSecret prev t tokens) : (render (tokens.flatMap assignedSecret.pieces)).head? = t.head? := by
  cases h with
  | nil => rfl
  | text _ _ => rfl
  | found hm _ =>
    have hne := assigned_head (takes_of_match? hm).1
    rw [List.flatMap_cons, render_append, Pattern.pieces, List.append_assoc, List.head?_append_of_ne_nil _ hne]
    split
    · rw [render_append, render_plains, List.append_assoc, List.head?_append_of_ne_nil _ hne]
    · rw [render_plains, List.append_assoc, List.head?_append_of_ne_nil _ hne]

/-- Where the assignment did not match before, it does not after. -/
theorem assigned_none {prev prev' : Option Char} {c : Char} {t : List Char} {tokens : List Token}
    (hp : SamePlace prev prev' (c :: t)) (hm : assignedSecret.match? prev (c :: t) = none)
    (h : Scan assignedSecret (some c) t tokens) :
    assignedSecret.match? prev' (c :: render (tokens.flatMap assignedSecret.pieces)) = none := by
  rw [match?_eq_none]
  intro u rest hu htake
  obtain ⟨n, s, rfl, hn, hs⟩ := takes_seq.mp htake
  obtain ⟨hs, hlen⟩ := takes_many.mp hs
  obtain ⟨_, _, _, _, _, _, hname⟩ := assigned_named hn
  have hq : render (.plain c :: tokens.flatMap assignedSecret.pieces) = n ++ (s ++ rest) := by
    rw [render_cons, ← List.append_assoc, ← hu]
    rfl
  have horigin : ∀ label origin, .mark label origin ∈ Piece.plain c :: tokens.flatMap assignedSecret.pieces →
      .mark label origin ∈ tokens.flatMap assignedSecret.pieces := by
    intro label origin hmem
    simpa using hmem
  have hopen : ∀ label origin, .mark label origin ∈ tokens.flatMap assignedSecret.pieces →
      ∃ v, label = '[' :: v := by
    intro label origin hmem
    obtain ⟨xs, ys, hxs⟩ := List.append_of_mem hmem
    obtain ⟨_, _, _, _, _, _, rfl, _⟩ := mark_at hxs
    exact ⟨_, marker_eq _⟩
  rcases cut hq with ⟨as, cs, hac, ha, hc⟩ | ⟨as, label, origin, cs, x, y, hac, hl, hx, -, hn', -⟩
  · have has : as = plains n := by
      refine eq_plains ha fun label origin hmem => ?_
      obtain ⟨v, rfl⟩ := hopen label origin (horigin _ _ (by rw [hac]; exact List.mem_append_left cs hmem))
      exact ⟨'[', List.mem_cons_self, hname.notMem_bracket⟩
    obtain ⟨s', rest', hsrc, hs', hlen'⟩ := value_under (fun label origin hmem =>
      assigned_origin h (horigin _ _ (by rw [hac]; exact List.mem_append_right as hmem))) hc hs hlen
    have ht : c :: t = n ++ s' ++ rest' := by
      have := congrArg source hac
      rw [source_cons, source_pieces, h.textOf_eq, source_append, has, source_plains, hsrc] at this
      rw [List.append_assoc]
      exact this
    have hhead : (c :: t).head? = n.head? := by
      rw [ht, List.append_assoc, List.head?_append_of_ne_nil n (assigned_head hn)]
    refine match?_eq_none.mp hm (n ++ s') rest' ht (takes_seq.mpr ⟨n, s', rfl, ?_, takes_many.mpr ⟨hs', hlen'⟩⟩)
    exact SamePlace.takes (hp.imp_left Eq.symm) hhead hn
  · obtain ⟨v, hv⟩ := hopen label origin (horigin _ _ (by rw [hac]; simp))
    obtain ⟨d, x, rfl⟩ := List.exists_cons_of_ne_nil hx
    rw [hl, List.cons_append] at hv
    obtain ⟨rfl, -⟩ := List.cons.inj hv
    exact hname.notMem_bracket (by rw [hn']; simp)

theorem redacts_marker {p : Pattern} (hk : p.keep = .prefixed) (kind : String) :
    p.redacts (marker kind) = false := by
  unfold Pattern.redacts
  rw [hk]
  have hbegins : marker kind = "[redacted:".toList ++ (kind.toList ++ "]".toList) := List.append_assoc _ _ _
  exact congrArg (!·) (List.isPrefixOf_iff_prefix.mpr ⟨_, hbegins.symm⟩)

/-- The assignment finds its markers and skips them: a second pass redacts nothing. -/
theorem assigned_again {prev : Option Char} {t : List Char} {tokens : List Token}
    (h : Scan assignedSecret prev t tokens) {prev' : Option Char} (hp : SamePlace prev prev' t) :
    ∃ again, Scan assignedSecret prev' (render (tokens.flatMap assignedSecret.pieces)) again ∧
      ∀ tok ∈ again, tok.redacted assignedSecret = false := by
  induction h generalizing prev' with
  | nil => exact ⟨[], .nil prev', by simp⟩
  | @text prev c t tokens hm hs ih =>
    obtain ⟨again, hagain, hstill⟩ := ih (.inl rfl)
    exact ⟨.text c :: again, .text (assigned_none hp hm hs) hagain, List.forall_mem_cons.mpr ⟨rfl, hstill⟩⟩
  | @found prev n s rest tokens hm hs ih =>
    obtain ⟨hn, hsecret⟩ := takes_of_match? hm
    obtain ⟨hv, hlen⟩ := takes_many.mp hsecret
    have hnext := assignedSecret_next hm
    have hhead : (n ++ s ++ rest).head? = n.head? := by
      rw [List.append_assoc, List.head?_append_of_ne_nil n (assigned_head hn)]
    have hmem : assignedSecret ∈ patterns := by simp [patterns]
    have hmarker : (∀ c ∈ marker assignedSecret.kind, valueChar c = true) ∧
        16 ≤ (marker assignedSecret.kind).length := by
      refine ⟨marker_value hmem, ?_⟩
      rw [marker_eq]
      simp [assignedSecret]
    have hskip : assignedSecret.redacts (marker assignedSecret.kind) = false := redacts_marker rfl _
    -- the value that stands there now, and that is skipped
    have hgo : ∀ v, (∀ c ∈ v, valueChar c = true) → 16 ≤ v.length → assignedSecret.redacts v = false →
        render (assignedSecret.pieces (.found n s)) = n ++ v →
        ∃ again, Scan assignedSecret prev' (render ((Token.found n s :: tokens).flatMap assignedSecret.pieces)) again ∧
          ∀ tok ∈ again, tok.redacted assignedSecret = false := by
      intro v hv hlen hr hrender
      obtain ⟨again, hagain, hstill⟩ := @ih (after prev' (n ++ v)) (.inr hnext)
      refine ⟨.found n v :: again, ?_, List.forall_mem_cons.mpr ⟨hr, hstill⟩⟩
      rw [List.flatMap_cons, render_append, hrender]
      refine .found (assigned_match (hp.takes hhead hn) hv hlen ?_) hagain
      rwa [head_render hs]
    by_cases hr : assignedSecret.redacts s = true
    · exact hgo _ hmarker.1 hmarker.2 hskip (by rw [Pattern.pieces, if_pos hr]; simp [Piece.render])
    · exact hgo s hv hlen (by simpa using hr) (by rw [Pattern.pieces, if_neg hr]; simp)

end Scrub
end PolisMemory

/-
# Texts with marks

A text in which spans stand replaced by labels, as its pieces: a character that
is kept, or a mark with its label and what the label stands for. The source of
the pieces is the text before, their rendering the text after. What is foreign
to the labels stands in the rendering only where it is kept (`kept_of_foreign`),
and marks laid over a rendering that cut no label are marks of the first source
(`overlay_lay`).

Key definitions: `Piece`, `source`, `render`, `Covered`, `Aligned`, `lay`, `Overlay`.
Key theorems: `cut`, `kept_of_foreign`, `overlay_lay`.
-/
import Mathlib.Data.List.Infix
import Mathlib.Tactic.Common

namespace Marked

inductive Piece where
  | plain (c : Char)
  | mark (label origin : List Char)
  deriving DecidableEq, Repr

def Piece.source : Piece → List Char
  | .plain c => [c]
  | .mark _ origin => origin

def Piece.render : Piece → List Char
  | .plain c => [c]
  | .mark label _ => label

/-- The text before the marks. -/
def source (ps : List Piece) : List Char := ps.flatMap Piece.source

/-- The text with the marks. -/
def render (ps : List Piece) : List Char := ps.flatMap Piece.render

/-- A text that is kept. -/
def plains (u : List Char) : List Piece := u.map .plain

@[simp] theorem source_nil : source [] = [] := rfl

@[simp] theorem render_nil : render [] = [] := rfl

@[simp] theorem source_cons (q : Piece) (ps : List Piece) : source (q :: ps) = q.source ++ source ps := rfl

@[simp] theorem render_cons (q : Piece) (ps : List Piece) : render (q :: ps) = q.render ++ render ps := rfl

@[simp] theorem source_append (ps qs : List Piece) : source (ps ++ qs) = source ps ++ source qs :=
  List.flatMap_append

@[simp] theorem render_append (ps qs : List Piece) : render (ps ++ qs) = render ps ++ render qs :=
  List.flatMap_append

@[simp] theorem plains_nil : plains [] = [] := rfl

@[simp] theorem plains_cons (c : Char) (u : List Char) : plains (c :: u) = .plain c :: plains u := rfl

@[simp] theorem plains_append (u v : List Char) : plains (u ++ v) = plains u ++ plains v := List.map_append

@[simp] theorem source_plains (u : List Char) : source (plains u) = u := by
  induction u with
  | nil => rfl
  | cons c u ih => rw [plains_cons, source_cons, ih, Piece.source, List.singleton_append]

@[simp] theorem render_plains (u : List Char) : render (plains u) = u := by
  induction u with
  | nil => rfl
  | cons c u ih => rw [plains_cons, render_cons, ih, Piece.render, List.singleton_append]

/-- The pieces that show the first `n` characters, and the others. -/
def parted : ℕ → List Piece → List Piece × List Piece
  | 0, ps => ([], ps)
  | _ + 1, [] => ([], [])
  | n + 1, p :: ps => (p :: (parted (n + 1 - p.render.length) ps).1, (parted (n + 1 - p.render.length) ps).2)

/-- Marks of the rendering as marks of the source; `k` characters before are kept. -/
def lay : ℕ → List Piece → List Piece → List Piece
  | _, ps, [] => ps
  | k, ps, .plain _ :: qs => lay (k + 1) ps qs
  | k, ps, .mark label origin :: qs =>
    (parted k ps).1 ++ .mark label (source (parted origin.length (parted k ps).2).1) ::
      lay 0 (parted origin.length (parted k ps).2).2 qs

/-- The spans of the source that are replaced, from an offset on. -/
def spans : ℕ → List Piece → List (ℕ × ℕ)
  | _, [] => []
  | k, .plain _ :: ps => spans (k + 1) ps
  | k, .mark _ origin :: ps => (k, k + origin.length) :: spans (k + origin.length) ps

/-- The span from `a` to `b` lies in one that is replaced. -/
def Covered (k : ℕ) (ps : List Piece) (a b : ℕ) : Prop := ∃ s ∈ spans k ps, s.1 ≤ a ∧ b ≤ s.2

theorem spans_append (k : ℕ) (ps qs : List Piece) :
    spans k (ps ++ qs) = spans k ps ++ spans (k + (source ps).length) qs := by
  induction ps generalizing k with
  | nil => rfl
  | cons p ps ih =>
    rw [source_cons, List.length_append, ← Nat.add_assoc]
    cases p with
    | plain c => exact ih (k + 1)
    | mark label origin => exact congrArg _ (ih (k + origin.length))

/-- Replaced spans lie in the source. -/
theorem mem_spans {k : ℕ} {ps : List Piece} {s : ℕ × ℕ} (hs : s ∈ spans k ps) :
    k ≤ s.1 ∧ s.2 ≤ k + (source ps).length := by
  induction ps generalizing k with
  | nil => cases hs
  | cons p ps ih =>
    rw [source_cons, List.length_append]
    cases p with
    | plain c =>
      have := ih hs
      simp only [Piece.source, List.length_singleton]
      omega
    | mark label origin =>
      rcases List.mem_cons.mp hs with rfl | hs
      · simp only [Piece.source]
        omega
      · have := ih hs
        simp only [Piece.source]
        omega

/-! ### Cutting a rendering -/

/-- A place of the rendering is between two pieces, or inside of a label. -/
theorem cut {ps : List Piece} {x y : List Char} (h : render ps = x ++ y) :
    (∃ qs rs, ps = qs ++ rs ∧ render qs = x ∧ render rs = y) ∨
      ∃ qs label origin rs u v, ps = qs ++ .mark label origin :: rs ∧ label = u ++ v ∧ u ≠ [] ∧ v ≠ [] ∧
        x = render qs ++ u ∧ y = v ++ render rs := by
  induction ps generalizing x with
  | nil =>
    obtain ⟨rfl, rfl⟩ := List.append_eq_nil_iff.mp h.symm
    exact .inl ⟨[], [], rfl, rfl, rfl⟩
  | cons p ps ih =>
    rw [render_cons] at h
    rcases List.append_eq_append_iff.mp h with ⟨x', rfl, hx⟩ | ⟨v, hp, rfl⟩
    · rcases ih hx with ⟨qs, rs, rfl, rfl, rfl⟩ | ⟨qs, label, origin, rs, u, v, rfl, hl, hu, hv, rfl, rfl⟩
      · exact .inl ⟨p :: qs, rs, rfl, rfl, rfl⟩
      · exact .inr ⟨p :: qs, label, origin, rs, u, v, rfl, hl, hu, hv, by simp, rfl⟩
    · by_cases hx : x = []
      · subst hx
        exact .inl ⟨[], p :: ps, rfl, rfl, by rw [render_cons, hp, List.nil_append]⟩
      by_cases hv : v = []
      · subst hv
        exact .inl ⟨[p], ps, rfl, by simpa using hp, rfl⟩
      cases p with
      | plain c =>
        have := congrArg List.length hp
        have hx := List.length_pos_iff.mpr hx
        have hv := List.length_pos_iff.mpr hv
        simp only [Piece.render, List.length_singleton, List.length_append] at this
        omega
      | mark label origin => exact .inr ⟨[], label, origin, ps, x, v, rfl, hp, hx, hv, rfl, rfl⟩

/-- `w` neither has an end of the label in it nor lies in the label. -/
structure Foreign (label w : List Char) : Prop where
  head : ∀ c ∈ label.head?, c ∉ w
  last : ∀ c ∈ label.getLast?, c ∉ w
  part : ¬ w <:+: label

/-- What is foreign to the labels starts between two pieces. -/
theorem cut_start {ps : List Piece} {x w y : List Char} (h : render ps = x ++ w ++ y)
    (hw : ∀ label origin, .mark label origin ∈ ps → Foreign label w) :
    ∃ qs rs, ps = qs ++ rs ∧ render qs = x ∧ render rs = w ++ y := by
  rw [List.append_assoc] at h
  refine (cut h).resolve_right ?_
  rintro ⟨qs, label, origin, rs, u, v, rfl, rfl, -, hv, -, hy⟩
  have hf := hw (u ++ v) origin (by simp)
  rcases List.append_eq_append_iff.mp hy with ⟨z, rfl, -⟩ | ⟨z, rfl, -⟩
  · exact hf.part ⟨u, z, by simp⟩
  · refine hf.last (v.getLast hv) ?_ (List.mem_append_left z (List.getLast_mem hv))
    rw [List.getLast?_append_of_ne_nil u hv, List.getLast?_eq_some_getLast hv]
    exact rfl

/-- What is foreign to the labels ends between two pieces. -/
theorem cut_end {ps : List Piece} {x w y : List Char} (h : render ps = x ++ w ++ y)
    (hw : ∀ label origin, .mark label origin ∈ ps → Foreign label w) :
    ∃ qs rs, ps = qs ++ rs ∧ render qs = x ++ w ∧ render rs = y := by
  refine (cut h).resolve_right ?_
  rintro ⟨qs, label, origin, rs, u, v, rfl, rfl, hu, -, hx, -⟩
  have hf := hw (u ++ v) origin (by simp)
  rcases List.append_eq_append_iff.mp hx with ⟨z, -, rfl⟩ | ⟨z, -, rfl⟩
  · refine hf.head (u.head hu) ?_ (List.mem_append_right z (List.head_mem hu))
    rw [List.head?_append_of_ne_nil u hu, List.head?_eq_some_head hu]
    exact rfl
  · exact hf.part ⟨z, v, by simp⟩

theorem eq_plains {ps : List Piece} {w : List Char} (h : render ps = w)
    (hw : ∀ label origin, .mark label origin ∈ ps → ∃ c ∈ label, c ∉ w) : ps = plains w := by
  induction ps generalizing w with
  | nil => rw [← h]; rfl
  | cons p ps ih =>
    cases p with
    | plain c =>
      subst h
      have := ih rfl fun label origin hm => by
        obtain ⟨d, hd, hn⟩ := hw label origin (List.mem_cons_of_mem _ hm)
        exact ⟨d, hd, fun hmem => hn (List.mem_append_right _ hmem)⟩
      rw [render_cons, Piece.render, List.singleton_append, plains_cons, ← this]
    | mark label origin =>
      obtain ⟨d, hd, hn⟩ := hw label origin List.mem_cons_self
      exact absurd (h ▸ List.mem_append_left _ hd) hn

/-- A span of the rendering whose beginning and whose end are foreign to the
labels is a stretch of pieces. -/
theorem stretch_of_foreign {ps : List Piece} {x w y b e : List Char} (h : render ps = x ++ w ++ y)
    (hb : b <+: w) (he : e <:+ w) (hfb : ∀ label origin, .mark label origin ∈ ps → Foreign label b)
    (hfe : ∀ label origin, .mark label origin ∈ ps → Foreign label e) :
    ∃ qs ms rs, ps = qs ++ ms ++ rs ∧ render qs = x ∧ render ms = w ∧ render rs = y := by
  obtain ⟨v, rfl⟩ := hb
  have hstart : render ps = x ++ b ++ (v ++ y) := by rw [h]; simp
  obtain ⟨qs, ts, rfl, hx, ht⟩ := cut_start hstart hfb
  obtain ⟨z, hz⟩ := he
  have hend : render ts = z ++ e ++ y := by rw [ht, hz]; simp
  obtain ⟨ms, rs, rfl, hm, hy⟩ := cut_end hend fun label origin hm => hfe label origin (List.mem_append_right _ hm)
  exact ⟨qs, ms, rs, by simp, hx, hm.trans hz, hy⟩

/-- What is foreign to the labels is kept. -/
theorem kept_of_foreign {ps : List Piece} {x w y : List Char} (h : render ps = x ++ w ++ y)
    (hl : ∀ label origin, .mark label origin ∈ ps → label ≠ [])
    (hw : ∀ label origin, .mark label origin ∈ ps → Foreign label w) :
    ∃ qs rs, ps = qs ++ plains w ++ rs ∧ render qs = x ∧ render rs = y := by
  obtain ⟨qs, ts, rfl, hx, ht⟩ := cut_start h hw
  have hw' : ∀ label origin, .mark label origin ∈ ts → Foreign label w :=
    fun label origin hm => hw label origin (List.mem_append_right _ hm)
  obtain ⟨ms, rs, rfl, hm, hy⟩ := cut_end (x := []) ht hw'
  have := eq_plains hm fun label origin hmem => by
    have hmem := List.mem_append_right qs (List.mem_append_left rs hmem)
    have hne := hl label origin hmem
    exact ⟨label.head hne, List.head_mem hne, (hw label origin hmem).head _ (List.head?_eq_some_head hne)⟩
  exact ⟨qs, rs, by rw [this, List.append_assoc]; rfl, hx, hy⟩

/-! ### Marks over marks -/

/-- No mark of `qs` cuts a label of `ps`. -/
def Aligned (ps qs : List Piece) : Prop :=
  ∀ xs label origin ys, qs = xs ++ .mark label origin :: ys →
    ∃ as ms cs, ps = as ++ ms ++ cs ∧ render as = source xs ∧ render ms = origin ∧ render cs = source ys

/-- Every piece shows. -/
def Shows (ps : List Piece) : Prop := ∀ label origin, .mark label origin ∈ ps → label ≠ []

theorem Shows.eq_nil {ps : List Piece} (hp : Shows ps) (h : render ps = []) : ps = [] := by
  cases ps with
  | nil => rfl
  | cons p ps =>
    cases p with
    | plain c => cases h
    | mark label origin => exact absurd (List.append_eq_nil_iff.mp h).1 (hp label origin List.mem_cons_self)

theorem plains_or_mark (ps : List Piece) :
    (∃ u, ps = plains u) ∨ ∃ u label origin qs, ps = plains u ++ .mark label origin :: qs := by
  induction ps with
  | nil => exact .inl ⟨[], rfl⟩
  | cons p ps ih =>
    cases p with
    | mark label origin => exact .inr ⟨[], label, origin, ps, rfl⟩
    | plain c =>
      rcases ih with ⟨u, rfl⟩ | ⟨u, label, origin, qs, rfl⟩
      · exact .inl ⟨c :: u, rfl⟩
      · exact .inr ⟨c :: u, label, origin, qs, rfl⟩

/-- Of two ways to part the pieces the one that shows more goes on from the other. -/
theorem Shows.part {bs ds bs' ds' : List Piece} {x : List Char} (hs : Shows (bs ++ ds))
    (h : bs ++ ds = bs' ++ ds') (hr : render bs' = render bs ++ x) :
    ∃ es, bs' = bs ++ es ∧ ds = es ++ ds' ∧ render es = x := by
  rcases List.append_eq_append_iff.mp h with ⟨es, rfl, rfl⟩ | ⟨es, rfl, rfl⟩
  · exact ⟨es, rfl, rfl, by simpa using hr⟩
  · have hlen := congrArg List.length hr
    simp only [render_append, List.length_append] at hlen
    have hnil : es = [] := by
      refine Shows.eq_nil (fun l o hm => hs l o (by simp [hm])) ?_
      exact List.length_eq_zero_iff.mp (by omega)
    subst hnil
    exact ⟨[], by simp, by simp, by simpa using hr⟩

/-- Two ways to part the pieces that show the same are one. -/
theorem Shows.part_eq {bs ds bs' ds' : List Piece} (hs : Shows (bs ++ ds)) (h : bs ++ ds = bs' ++ ds')
    (hr : render bs' = render bs) : bs' = bs ∧ ds' = ds := by
  obtain ⟨es, rfl, rfl, he⟩ := hs.part (x := []) h (by rw [hr, List.append_nil])
  obtain rfl := Shows.eq_nil (fun l o hm => hs l o (by simp [hm])) he
  exact ⟨List.append_nil bs, (List.nil_append ds').symm⟩

/-- What follows a mark is aligned with what follows the stretch under it. -/
theorem Aligned.tail {as cs xs qs : List Piece} {label origin : List Char} (hs : Shows (as ++ cs))
    (hr : render as = source xs ++ origin) (h : Aligned (as ++ cs) (xs ++ .mark label origin :: qs)) :
    Aligned cs qs := by
  rintro ys l o zs rfl
  obtain ⟨bs, ms, ds, hp, hb, hm, hd⟩ := h (xs ++ .mark label origin :: ys) l o zs (by simp)
  have hb' : render bs = render as ++ source ys := by rw [hb, hr]; simp [Piece.source]
  rw [List.append_assoc] at hp
  obtain ⟨es, -, rfl, he⟩ := hs.part hp hb'
  exact ⟨es, ms, ds, by simp, he, hm, hd⟩

theorem notMem_plains {label origin u : List Char} : .mark label origin ∉ plains u := by
  simp [plains]

/-- A mark after a text comes after all of it. -/
theorem mark_after_plains {u label origin : List Char} {qs xs ys : List Piece}
    (h : plains u ++ qs = xs ++ .mark label origin :: ys) :
    ∃ zs, xs = plains u ++ zs ∧ qs = zs ++ .mark label origin :: ys := by
  rcases List.append_eq_append_iff.mp h with ⟨zs, rfl, hz⟩ | ⟨zs, hu, hz⟩
  · exact ⟨zs, rfl, hz⟩
  · cases zs with
    | nil => exact ⟨[], by simpa using hu.symm, hz.symm⟩
    | cons z zs =>
      obtain ⟨rfl, -⟩ := List.cons.inj hz
      exact absurd (show .mark label origin ∈ plains u by rw [hu]; simp) notMem_plains

/-- A character that is kept before a mark is one of the text before it. -/
theorem plain_before_mark {n label origin : List Char} {xs ys : List Piece} {c : Char}
    (h : plains n ++ [.mark label origin] = xs ++ .plain c :: ys) :
    ∃ u v, n = u ++ c :: v ∧ xs = plains u ∧ ys = plains v ++ [.mark label origin] := by
  induction n generalizing xs with
  | nil =>
    cases xs with
    | nil => simp at h
    | cons x xs => simp at h
  | cons d n ih =>
    cases xs with
    | nil =>
      simp only [plains_cons, List.cons_append, List.nil_append, List.cons.injEq, Piece.plain.injEq] at h
      exact ⟨[], n, by rw [h.1]; rfl, rfl, h.2.symm⟩
    | cons x xs =>
      simp only [plains_cons, List.cons_append, List.cons.injEq] at h
      obtain ⟨u, v, rfl, rfl, hv⟩ := ih h.2
      exact ⟨d :: u, v, rfl, by rw [← h.1]; rfl, hv⟩

/-- The first mark after a text is the one that is looked for, or comes before it. -/
theorem first_mark {u l o l' o' : List Char} {qs xs ys : List Piece}
    (h : plains u ++ .mark l o :: qs = xs ++ .mark l' o' :: ys) :
    (xs = plains u ∧ l' = l ∧ o' = o ∧ ys = qs) ∨
      ∃ zs, xs = plains u ++ .mark l o :: zs ∧ qs = zs ++ .mark l' o' :: ys := by
  obtain ⟨zs, rfl, hz⟩ := mark_after_plains h
  cases zs with
  | nil =>
    simp only [List.nil_append, List.cons.injEq, Piece.mark.injEq] at hz
    exact .inl ⟨List.append_nil _, hz.1.1.symm, hz.1.2.symm, hz.2.symm⟩
  | cons z zs =>
    obtain ⟨rfl, rfl⟩ := List.cons.inj hz
    exact .inr ⟨zs, rfl, rfl⟩

/-- The new marks are marks of the source under them, and the old ones stay. -/
structure Overlay (k : ℕ) (ps qs rs : List Piece) : Prop where
  source_eq : source rs = source ps
  render_eq : render rs = render qs
  labels : ∀ label origin, .mark label origin ∈ rs →
    (∃ o, .mark label o ∈ ps) ∨ ∃ o, .mark label o ∈ qs
  keeps : ∀ a b, Covered k ps a b → Covered k rs a b
  covers : ∀ as ms cs xs label origin ys, ps = as ++ ms ++ cs → qs = xs ++ .mark label origin :: ys →
    render as = source xs → render ms = origin →
    Covered k rs (k + (source as).length) (k + (source as).length + (source ms).length)

theorem overlay_plains {ps : List Piece} {u : List Char} (h : render ps = u) (k : ℕ) :
    Overlay k ps (plains u) ps where
  source_eq := rfl
  render_eq := by rw [h, render_plains]
  labels _ origin hm := .inl ⟨origin, hm⟩
  keeps _ _ hc := hc
  covers as ms cs xs label origin ys _ hq _ _ := by
    have : Piece.mark label origin ∈ plains u := by rw [hq]; simp
    simp [plains] at this

theorem overlay_mark {k : ℕ} {as ms cs qs rs : List Piece} {label : List Char} (hs : Shows (as ++ ms ++ cs))
    (h : Overlay (k + (source as).length + (source ms).length) cs qs rs) :
    Overlay k (as ++ ms ++ cs) (plains (render as) ++ .mark label (render ms) :: qs)
      (as ++ .mark label (source ms) :: rs) := by
  have hspans : spans k (as ++ ms ++ cs) = spans k as ++ spans (k + (source as).length) ms ++
      spans (k + (source as).length + (source ms).length) cs := by
    rw [spans_append, spans_append, source_append, List.length_append, Nat.add_assoc]
  have hspans' : spans k (as ++ .mark label (source ms) :: rs) = spans k as ++
      (k + (source as).length, k + (source as).length + (source ms).length) ::
        spans (k + (source as).length + (source ms).length) rs := by
    rw [spans_append, spans]
  refine ⟨by simp [Piece.source, h.source_eq], by simp [Piece.render, h.render_eq], ?_, ?_, ?_⟩
  · intro l o hm
    rcases List.mem_append.mp hm with hm | hm
    · exact .inl ⟨o, by simp [hm]⟩
    rcases List.mem_cons.mp hm with heq | hm
    · cases heq
      exact .inr ⟨render ms, by simp⟩
    · rcases h.labels l o hm with ⟨o', ho⟩ | ⟨o', ho⟩
      · exact .inl ⟨o', by simp [ho]⟩
      · exact .inr ⟨o', by simp [ho]⟩
  · rintro a b ⟨s, hs, ha, hb⟩
    rw [hspans, List.mem_append, List.mem_append] at hs
    rcases hs with (hs | hs) | hs
    · exact ⟨s, by rw [hspans']; exact List.mem_append_left _ hs, ha, hb⟩
    · have := mem_spans hs
      refine ⟨_, by rw [hspans']; exact List.mem_append_right _ List.mem_cons_self, ?_, ?_⟩
      · exact this.1.trans ha
      · exact hb.trans this.2
    · obtain ⟨s', hs', ha', hb'⟩ := h.keeps a b ⟨s, hs, ha, hb⟩
      exact ⟨s', by rw [hspans']; exact List.mem_append_right _ (List.mem_cons_of_mem _ hs'), ha', hb'⟩
  · intro bs ns ds xs l o ys hp hq hb hn
    rw [List.append_assoc] at hs hp
    rcases first_mark hq with ⟨rfl, rfl, rfl, rfl⟩ | ⟨zs, rfl, rfl⟩
    · rw [source_plains] at hb
      rw [List.append_assoc] at hp
      obtain ⟨rfl, hcs⟩ := hs.part_eq hp hb
      have hs' : Shows (ms ++ cs) := fun l o hm => hs l o (List.mem_append_right _ hm)
      obtain ⟨rfl, -⟩ := hs'.part_eq hcs.symm hn
      exact ⟨_, by rw [hspans']; exact List.mem_append_right _ List.mem_cons_self, le_rfl, le_rfl⟩
    · rw [List.append_assoc] at hp
      obtain ⟨es, rfl, hcs, he⟩ := (show Shows ((as ++ ms) ++ cs) by rwa [List.append_assoc]).part
        (by rw [← hp, List.append_assoc]) (show render bs = render (as ++ ms) ++ source zs by rw [hb]; simp [Piece.source])
      obtain ⟨s, hs, ha, hb⟩ := h.covers es ns ds zs l o ys (by rw [hcs, List.append_assoc]) rfl he hn
      refine ⟨s, by rw [hspans']; exact List.mem_append_right _ (List.mem_cons_of_mem _ hs), ?_, ?_⟩
      · simp only [source_append, List.length_append]
        omega
      · simp only [source_append, List.length_append]
        omega

theorem parted_append {as cs : List Piece} (hs : Shows as) :
    parted (render as).length (as ++ cs) = (as, cs) := by
  induction as with
  | nil => cases cs <;> rfl
  | cons p as ih =>
    have hp : 0 < p.render.length := by
      cases p with
      | plain c => exact Nat.one_pos
      | mark label origin => exact List.length_pos_iff.mpr (hs label origin List.mem_cons_self)
    obtain ⟨n, hn⟩ : ∃ n, (render (p :: as)).length = n + 1 :=
      ⟨p.render.length + (render as).length - 1, by rw [render_cons, List.length_append]; omega⟩
    have hrest : n + 1 - p.render.length = (render as).length := by
      rw [← hn, render_cons, List.length_append]
      omega
    rw [hn, List.cons_append, parted, hrest, ih fun l o hm => hs l o (List.mem_cons_of_mem p hm)]

theorem lay_plains (k : ℕ) (ps : List Piece) (u : List Char) (qs : List Piece) :
    lay k ps (plains u ++ qs) = lay (k + u.length) ps qs := by
  induction u generalizing k with
  | nil => rfl
  | cons c u ih =>
    rw [plains_cons, List.cons_append, lay, ih, List.length_cons]
    congr 1
    omega

/-- Without marks there is nothing to lay. -/
theorem lay_self (ps : List Piece) (u : List Char) : lay 0 ps (plains u) = ps := by
  have := lay_plains 0 ps u []
  rwa [List.append_nil] at this

/-- Marks laid over a rendering without a label cut are marks of its source. -/
theorem overlay_lay {ps qs : List Piece} (hs : Shows ps) (h : render ps = source qs) (ha : Aligned ps qs)
    (k : ℕ) : Overlay k ps qs (lay 0 ps qs) := by
  induction hn : qs.length using Nat.strong_induction_on generalizing ps qs k with
  | _ n ih =>
    rcases plains_or_mark qs with ⟨u, rfl⟩ | ⟨u, label, origin, qs, rfl⟩
    · rw [lay_self]
      exact overlay_plains (h.trans (source_plains u)) k
    · obtain ⟨as, ms, cs, rfl, hu, rfl, hr⟩ := ha (plains u) label origin qs rfl
      rw [source_plains] at hu
      have ha' := ha.tail hs (by rw [render_append, source_plains, hu])
      have hlay : lay 0 (as ++ ms ++ cs) (plains u ++ .mark label (render ms) :: qs) =
          as ++ .mark label (source ms) :: lay 0 cs qs := by
        rw [lay_plains, lay, Nat.zero_add, ← hu, List.append_assoc,
          parted_append fun l o hm => hs l o (by simp [hm]), parted_append fun l o hm => hs l o (by simp [hm])]
      subst hn
      rw [hlay, ← hu]
      refine overlay_mark hs (ih qs.length ?_ (fun l o hm => hs l o (by simp [hm])) hr ha' _ rfl)
      rw [List.length_append, List.length_cons]
      omega

end Marked

/-
# The stop hook

`capture_stop_payload` of `crates/polis-memory/src/cli/mod.rs`: each time that an
assistant stops, a hook reads what its session's transcript has grown by, sends the
assistant's turns in batches to be stored, and only then moves the offset up to which
the transcript is read. Hooks may be in flight together; each may end anywhere, with
a batch stored in part, and they move the offset in any order.

A history is the transcript growing and hooks taking their steps. Whatever happens, all
that is said before the offset is stored, and if no reading ended within a turn, what
is stored are turns of the transcript, and all that come before the offset
(`stop_hook_captures`). A line that is longer than a reading is never passed
(`long_line_stalls`).

Key definitions: `batches`, `Listening.fire`, `Listening.run`, `Listening.Captured`,
`Listening.Told`.
Key theorems: `flatten_batches`, `Kept.step`, `stop_hook_captures`, `long_line_stalls`.
-/
import PolisMemory.Timestamps
import PolisMemory.Transcript

namespace PolisMemory
namespace Transcript

/-- `STOP_READ_LIMIT` -/
def stopReadLimit : ℕ := 4 * 1024 * 1024

/-- `STOP_BATCH_BYTES` -/
def stopBatchBytes : ℕ := 512 * 1024

/-- `IngestItem` -/
structure IngestItem where
  body : String
  ts : Option ℤ
  role : Option String
  session : Option String
  run : Option String
  project : Option String
  deriving DecidableEq, Repr

/-- The session of a hook, and its working directory. -/
structure StopPayload where
  session : String
  cwd : Option String

/-- A turn, to be stored. -/
def StopPayload.item (p : StopPayload) (t : Turn) : IngestItem :=
  ⟨t.body, t.ts, some "assistant", some p.session, some p.session, p.cwd⟩

/-! ### Batches -/

/-- The batches that are full, the last one and its size. -/
structure Batching where
  full : List (List IngestItem)
  last : List IngestItem
  size : ℕ

/-- One more item. -/
def Batching.push (s : Batching) (it : IngestItem) : Batching :=
  if stopBatchBytes < s.size + it.body.utf8ByteSize ∧ s.last ≠ [] then
    ⟨s.full ++ [s.last], [it], it.body.utf8ByteSize⟩
  else ⟨s.full, s.last ++ [it], s.size + it.body.utf8ByteSize⟩

/-- The batches of some items. -/
def batches (items : List IngestItem) : List (List IngestItem) :=
  let s := items.foldl Batching.push ⟨[], [], 0⟩
  s.full ++ [s.last]

/-- The size of a batch. -/
def batchSize (batch : List IngestItem) : ℕ := (batch.map fun it => it.body.utf8ByteSize).sum

/-- A batch fits a request, or has one item. -/
def Fits (batch : List IngestItem) : Prop := batchSize batch ≤ stopBatchBytes ∨ batch.length ≤ 1

theorem Batching.push_spec {s : Batching} (it : IngestItem) (hsize : s.size = batchSize s.last)
    (hfits : ∀ b ∈ s.full ++ [s.last], Fits b) :
    ((s.push it).full ++ [(s.push it).last]).flatten = (s.full ++ [s.last]).flatten ++ [it] ∧
      (s.push it).size = batchSize (s.push it).last ∧
      ∀ b ∈ (s.push it).full ++ [(s.push it).last], Fits b := by
  unfold push
  split_ifs with hfull
  · refine ⟨by simp, by simp [batchSize], fun b hb => ?_⟩
    rcases List.mem_append.mp hb with hb | hb
    · exact hfits b hb
    · obtain rfl := List.mem_singleton.mp hb
      exact .inr le_rfl
  · have hgrown : batchSize (s.last ++ [it]) = s.size + it.body.utf8ByteSize := by
      simp [batchSize, hsize]
    refine ⟨by simp, hgrown.symm, fun b hb => ?_⟩
    rcases List.mem_append.mp hb with hb | hb
    · exact hfits b (List.mem_append_left _ hb)
    · obtain rfl := List.mem_singleton.mp hb
      by_cases hnil : s.last = []
      · exact .inr (by simp [hnil])
      · have hroom : ¬stopBatchBytes < s.size + it.body.utf8ByteSize := fun hlt => hfull ⟨hlt, hnil⟩
        exact .inl (hgrown.trans_le (Nat.not_lt.mp hroom))

theorem foldl_push (items : List IngestItem) : ∀ s : Batching, s.size = batchSize s.last →
    (∀ b ∈ s.full ++ [s.last], Fits b) →
    let s' := items.foldl Batching.push s
    (s'.full ++ [s'.last]).flatten = (s.full ++ [s.last]).flatten ++ items ∧
      ∀ b ∈ s'.full ++ [s'.last], Fits b := by
  induction items with
  | nil => exact fun s _ hfits => ⟨by simp, hfits⟩
  | cons it items ih =>
    intro s hsize hfits
    obtain ⟨hflat, hsize', hfits'⟩ := Batching.push_spec it hsize hfits
    obtain ⟨hrest, hall⟩ := ih (s.push it) hsize' hfits'
    refine ⟨?_, hall⟩
    rw [List.foldl_cons, hrest, hflat, List.append_assoc, List.singleton_append]

/-- **The batches hold the items, in order.** -/
theorem flatten_batches (items : List IngestItem) : (batches items).flatten = items :=
  ((foldl_push items ⟨[], [], 0⟩ rfl (by simp [Fits])).1).trans (by simp)

/-- **Each batch fits**, unless it is one item. -/
theorem fits_of_mem_batches {items batch : List IngestItem} (h : batch ∈ batches items) : Fits batch :=
  (foldl_push items ⟨[], [], 0⟩ rfl (by simp [Fits])).2 batch h

/-! ### Hooks -/

/-- A hook in flight: where it has read, and what it has still to store. -/
structure Hook where
  start : ℕ
  complete : ℕ
  batches : List (List IngestItem)
  deriving DecidableEq, Repr

/-- A transcript, its offset, the offsets that hooks have read, the hooks that have read the
transcript, what was stored, and where the readings ended. -/
structure Listening where
  transcript : List UInt8
  offset : ℕ
  opened : List ℕ
  hooks : List Hook
  stored : List IngestItem
  ends : List ℕ

/-- One step of the transcript's writer or of a hook. -/
inductive Step
  | grow (more : List UInt8)
  | readOffset
  | fire (i : ℕ)
  | store (i : ℕ)
  /-- The hook ends, at a batch of which it has stored so many items. -/
  | fail (i n : ℕ)
  | save (i : ℕ)

namespace Listening

variable (R : Reader) (p : StopPayload)

/-- A piece of the transcript. -/
def piece (x : Listening) (a n : ℕ) : List UInt8 := (x.transcript.drop a).take n

/-- Its items. -/
def items (x : Listening) (a n : ℕ) : List IngestItem :=
  (assistantTurns R p.cwd (x.piece a n)).map p.item

/-- Where a hook reads from; a transcript that was replaced is read again. -/
def readFrom (x : Listening) (offset : ℕ) : ℕ := if x.transcript.length < offset then 0 else offset

/-- What a hook reads. -/
def chunk (x : Listening) (offset : ℕ) : List UInt8 :=
  (x.transcript.drop (x.readFrom offset)).take stopReadLimit

/-- A hook that has read the offset reads what is new, as far as the lines are complete. -/
def fire (x : Listening) (i : ℕ) : Listening :=
  match x.opened[i]? with
  | some offset =>
    let complete := completePrefix (x.chunk offset)
    if complete = 0 then { x with opened := x.opened.eraseIdx i }
    else
      let items := (assistantTurns R p.cwd ((x.chunk offset).take complete)).map p.item
      { x with
        opened := x.opened.eraseIdx i
        hooks := ⟨x.readFrom offset, complete, (batches items).filter (· ≠ [])⟩ :: x.hooks
        ends := (x.readFrom offset + complete) :: x.ends }
  | none => x

/-- A hook stores a batch. -/
def store (x : Listening) (i : ℕ) : Listening :=
  match x.hooks[i]? with
  | some ⟨start, complete, batch :: rest⟩ =>
    { x with
      hooks := x.hooks.set i ⟨start, complete, rest⟩
      stored := x.stored ++ batch }
  | _ => x

/-- A hook ends before its time. -/
def fail (x : Listening) (i n : ℕ) : Listening :=
  match x.hooks[i]? with
  | some f =>
    { x with
      hooks := x.hooks.eraseIdx i
      stored := x.stored ++ (f.batches.head?.getD []).take n }
  | none => x

/-- A hook that has stored all moves the offset. -/
def save (x : Listening) (i : ℕ) : Listening :=
  match x.hooks[i]? with
  | some ⟨start, complete, []⟩ =>
    { x with
      hooks := x.hooks.eraseIdx i
      offset := start + complete }
  | _ => x

def step (x : Listening) : Step → Listening
  | .grow more => { x with transcript := x.transcript ++ more }
  | .readOffset => { x with opened := x.offset :: x.opened }
  | .fire i => x.fire R p i
  | .store i => x.store i
  | .fail i n => x.fail i n
  | .save i => x.save i

/-- Before anything is written. -/
def start : Listening := ⟨[], 0, [], [], [], []⟩

/-- A history. -/
def run (steps : List Step) : Listening := steps.foldl (step R p) start

/-! ### What a history keeps -/

variable {R p} {x y : Listening} {a n : ℕ}

/-- The start, or where a reading ended. -/
structure Mark (x : Listening) (a : ℕ) : Prop where
  read : a = 0 ∨ a ∈ x.ends
  within : a ≤ x.transcript.length
  ended : LineEnded (x.transcript.take a)

/-- What is before is in pieces that are stored. -/
inductive Captured (R : Reader) (p : StopPayload) (x : Listening) : ℕ → Prop
  | zero : Captured R p x 0
  | next {a n : ℕ} (ha : Captured R p x a) (hn : x.Mark (a + n))
      (hstored : ∀ it ∈ x.items R p a n, it ∈ x.stored) : Captured R p x (a + n)

/-- What a hook in flight has read, it has stored or has still to store. -/
structure Hooked (R : Reader) (p : StopPayload) (x : Listening) (f : Hook) : Prop where
  captured : x.Captured R p f.start
  mark : x.Mark (f.start + f.complete)
  sent : ∀ it ∈ x.items R p f.start f.complete, it ∈ x.stored ∨ it ∈ f.batches.flatten
  items : ∀ it ∈ f.batches.flatten, it ∈ x.items R p f.start f.complete

structure Kept (R : Reader) (p : StopPayload) (x : Listening) : Prop where
  offset : x.Captured R p x.offset
  opened : ∀ a ∈ x.opened, x.Captured R p a
  stored : ∀ it ∈ x.stored, ∃ a n, x.Mark a ∧ x.Mark (a + n) ∧ it ∈ x.items R p a n
  hooks : ∀ f ∈ x.hooks, x.Hooked R p f

/-- Nothing is taken away. -/
structure Before (x y : Listening) : Prop where
  transcript : x.transcript <+: y.transcript
  ends : x.ends ⊆ y.ends
  stored : x.stored ⊆ y.stored

theorem items_before (h : x.Before y) (hn : a + n ≤ x.transcript.length) :
    y.items R p a n = x.items R p a n := by
  obtain ⟨more, hmore⟩ := h.transcript
  unfold items piece
  rw [← hmore, List.drop_append_of_le_length (by omega),
    List.take_append_of_le_length (by rw [List.length_drop]; omega)]

theorem Mark.before (h : x.Before y) (ha : x.Mark a) : y.Mark a := by
  obtain ⟨more, hmore⟩ := h.transcript
  refine ⟨ha.read.imp_right fun hmem => h.ends hmem, ha.within.trans h.transcript.length_le, ?_⟩
  rw [← hmore, List.take_append_of_le_length ha.within]
  exact ha.ended

theorem Captured.before (h : x.Before y) (ha : x.Captured R p a) : y.Captured R p a := by
  induction ha with
  | zero => exact .zero
  | next ha hn hstored ih =>
    refine .next ih (hn.before h) fun it hit => h.stored (hstored it ?_)
    rwa [items_before h hn.within] at hit

theorem Captured.mark (ha : x.Captured R p a) : x.Mark a := by
  cases ha with
  | zero => exact ⟨.inl rfl, Nat.zero_le _, fun b hb => by cases hb⟩
  | next ha hn hstored => exact hn

theorem Hooked.before (h : x.Before y) {f : Hook} (hf : x.Hooked R p f) : y.Hooked R p f := by
  have hsame : y.items R p f.start f.complete = x.items R p f.start f.complete :=
    items_before h hf.mark.within
  refine ⟨hf.captured.before h, hf.mark.before h, fun it hit => ?_, fun it hit => ?_⟩
  · exact (hf.sent it (hsame ▸ hit)).imp_left fun hmem => h.stored hmem
  · rw [hsame]
    exact hf.items it hit

/-- What has still to be shown of a step, if nothing is taken away. -/
theorem Kept.of_before (hx : x.Kept R p) (h : x.Before y)
    (hoffset : y.offset = x.offset ∨ y.Captured R p y.offset)
    (hopened : ∀ a ∈ y.opened, a ∈ x.opened ∨ x.Captured R p a)
    (hstored : ∀ it ∈ y.stored, it ∈ x.stored ∨ ∃ f ∈ x.hooks, it ∈ f.batches.flatten)
    (hhooks : ∀ f ∈ y.hooks, f ∈ x.hooks ∨ y.Hooked R p f) : y.Kept R p where
  offset := hoffset.elim (fun heq => heq ▸ hx.offset.before h) id
  opened a ha := ((hopened a ha).elim (hx.opened a) id).before h
  stored := by
    intro it hit
    have hpiece : ∃ a n, x.Mark a ∧ x.Mark (a + n) ∧ it ∈ x.items R p a n := by
      rcases hstored it hit with hold | ⟨f, hf, hmem⟩
      · exact hx.stored it hold
      · have hf := hx.hooks f hf
        exact ⟨f.start, f.complete, hf.captured.mark, hf.mark, hf.items it hmem⟩
    obtain ⟨a, n, ha, hn, hmem⟩ := hpiece
    exact ⟨a, n, ha.before h, hn.before h, by rwa [items_before h hn.within]⟩
  hooks f hf := (hhooks f hf).elim (fun hold => (hx.hooks f hold).before h) id

theorem readFrom_eq (h : a ≤ x.transcript.length) : x.readFrom a = a := if_neg (by omega)

theorem completePrefix_chunk_le (x : Listening) (a : ℕ) :
    completePrefix (x.chunk a) ≤ (x.transcript.drop (x.readFrom a)).length ∧
      completePrefix (x.chunk a) ≤ stopReadLimit := by
  have hle := completePrefix_le (x.chunk a)
  rw [chunk, List.length_take] at hle
  exact ⟨hle.trans (min_le_right _ _), hle.trans (min_le_left _ _)⟩

/-- A hook that has read a piece begins to store it. -/
theorem Kept.begins (hx : x.Kept R p) {bs : List (List IngestItem)} (i : ℕ) (ha : x.Captured R p a)
    (hn : a + n ≤ x.transcript.length) (hended : LineEnded (x.transcript.take (a + n)))
    (hbs : bs.flatten = x.items R p a n) :
    ({ x with
      opened := x.opened.eraseIdx i
      hooks := ⟨a, n, bs⟩ :: x.hooks
      ends := (a + n) :: x.ends } : Listening).Kept R p := by
  have hbefore : x.Before { x with
      opened := x.opened.eraseIdx i
      hooks := ⟨a, n, bs⟩ :: x.hooks
      ends := (a + n) :: x.ends } :=
    ⟨List.prefix_rfl, List.subset_cons_self _ _, List.Subset.refl _⟩
  refine hx.of_before hbefore (.inl rfl) (fun _ h => .inl (List.mem_of_mem_eraseIdx h))
    (fun _ h => .inl h) (fun f hf => ?_)
  rcases List.mem_cons.mp hf with rfl | hf
  · refine .inr ⟨ha.before hbefore, ⟨.inr List.mem_cons_self, hn, hended⟩, ?_, ?_⟩
    · exact fun it hit => .inr (hbs.symm ▸ hit)
    · exact fun it hit => hbs ▸ hit
  · exact .inl hf

theorem Kept.fire (hx : x.Kept R p) (i : ℕ) : (x.fire R p i).Kept R p := by
  unfold Listening.fire
  split
  · next a hi =>
    have ha := hx.opened a (List.mem_of_getElem? hi)
    have hfrom := readFrom_eq ha.mark.within
    obtain ⟨hwithin, hlimit⟩ := completePrefix_chunk_le x a
    have hcut : (x.chunk a).take (completePrefix (x.chunk a)) = x.piece a (completePrefix (x.chunk a)) := by
      rw [piece, chunk, hfrom, List.take_take, min_eq_left]
      rwa [chunk, hfrom] at hlimit
    have hended := lineEnded_completePrefix (x.chunk a)
    rw [hfrom, List.length_drop] at hwithin
    rw [hfrom]
    dsimp only
    split_ifs with hnone
    · exact hx.of_before ⟨List.prefix_rfl, List.Subset.refl _, List.Subset.refl _⟩ (.inl rfl)
        (fun _ h => .inl (List.mem_of_mem_eraseIdx h)) (fun _ h => .inl h) (fun _ h => .inl h)
    · refine hx.begins i ha ?_ ?_ ?_
      · have := ha.mark.within
        omega
      · rw [List.take_add, ← piece, ← hcut]
        exact ha.mark.ended.append hended
      · rw [List.flatten_filter_ne_nil, flatten_batches, hcut]
        rfl
  · exact hx

theorem Kept.store (hx : x.Kept R p) (i : ℕ) : (x.store i).Kept R p := by
  unfold Listening.store
  split
  · next start complete batch rest hi =>
    have hmem := List.mem_of_getElem? hi
    have hbefore : x.Before { x with
        hooks := x.hooks.set i ⟨start, complete, rest⟩
        stored := x.stored ++ batch } :=
      ⟨List.prefix_rfl, List.Subset.refl _, List.subset_append_left _ _⟩
    have hf := (hx.hooks _ hmem).before hbefore
    refine hx.of_before hbefore (.inl rfl) (fun _ h => .inl h) (fun it hit => ?_) (fun f hf' => ?_)
    · rcases List.mem_append.mp hit with hold | hnew
      · exact .inl hold
      · exact .inr ⟨_, hmem, by simp [hnew]⟩
    · rcases List.mem_or_eq_of_mem_set hf' with hold | rfl
      · exact .inl hold
      · refine .inr ⟨hf.captured, hf.mark, fun it hit => ?_, fun it hit => ?_⟩
        · rcases hf.sent it hit with hold | hleft
          · exact .inl hold
          · rcases List.mem_append.mp (List.flatten_cons ▸ hleft) with hnow | hlater
            · exact .inl (List.mem_append_right _ hnow)
            · exact .inr hlater
        · exact hf.items it (by rw [List.flatten_cons]; exact List.mem_append_right _ hit)
  · exact hx

theorem Kept.fail (hx : x.Kept R p) (i n : ℕ) : (x.fail i n).Kept R p := by
  unfold Listening.fail
  split
  · next f hi =>
    have hmem := List.mem_of_getElem? hi
    refine hx.of_before ⟨List.prefix_rfl, List.Subset.refl _, List.subset_append_left _ _⟩ (.inl rfl)
      (fun _ h => .inl h) (fun it hit => ?_) (fun f' hf' => .inl (List.mem_of_mem_eraseIdx hf'))
    rcases List.mem_append.mp hit with hold | hnew
    · exact .inl hold
    · refine .inr ⟨f, hmem, ?_⟩
      have hhead := List.mem_of_mem_take hnew
      cases hbatches : f.batches with
      | nil =>
        rw [hbatches] at hhead
        cases hhead
      | cons batch rest =>
        rw [hbatches] at hhead
        exact List.mem_append_left _ hhead
  · exact hx

theorem Kept.save (hx : x.Kept R p) (i : ℕ) : (x.save i).Kept R p := by
  unfold Listening.save
  split
  · next start complete hi =>
    have hf := hx.hooks _ (List.mem_of_getElem? hi)
    have hbefore : x.Before { x with
        hooks := x.hooks.eraseIdx i
        offset := start + complete } :=
      ⟨List.prefix_rfl, List.Subset.refl _, List.Subset.refl _⟩
    refine hx.of_before hbefore (.inr ?_) (fun _ h => .inl h) (fun it hit => .inl hit)
      (fun f' hf' => .inl (List.mem_of_mem_eraseIdx hf'))
    refine Captured.before hbefore (.next hf.captured hf.mark fun it hit => ?_)
    exact (hf.sent it hit).resolve_right (by simp)
  · exact hx

/-- **A step keeps what is before the offset stored.** -/
theorem Kept.step (hx : x.Kept R p) (st : Step) : (x.step R p st).Kept R p := by
  cases st with
  | grow more =>
    exact hx.of_before ⟨List.prefix_append _ _, List.Subset.refl _, List.Subset.refl _⟩ (.inl rfl)
      (fun _ h => .inl h) (fun _ h => .inl h) (fun _ h => .inl h)
  | readOffset =>
    refine hx.of_before ⟨List.prefix_rfl, List.Subset.refl _, List.Subset.refl _⟩ (.inl rfl)
      (fun a ha => ?_) (fun _ h => .inl h) (fun _ h => .inl h)
    rcases List.mem_cons.mp ha with rfl | ha
    · exact .inr hx.offset
    · exact .inl ha
  | fire i => exact hx.fire i
  | store i => exact hx.store i
  | fail i n => exact hx.fail i n
  | save i => exact hx.save i

theorem kept_run (steps : List Step) : (run R p steps).Kept R p := by
  have hall : ∀ x : Listening, x.Kept R p → (steps.foldl (Listening.step R p) x).Kept R p := by
    induction steps with
    | nil => exact fun _ hx => hx
    | cons st steps ih => exact fun x hx => ih _ (hx.step st)
  exact hall start ⟨.zero, fun _ ha => (by cases ha), fun _ hit => (by cases hit), fun _ hf => (by cases hf)⟩

/-! ### What is stored -/

/-- The whole lines that are behind. -/
def behind (x : Listening) (a : ℕ) : List UInt8 :=
  x.piece a (completePrefix (x.transcript.drop a))

/-- No reading ended within a turn. -/
def Apart (R : Reader) (x : Listening) : Prop := ∀ a ∈ x.ends, Fresh (entriesOf R (x.behind a))

theorem lineEnded_piece {t : List UInt8} (h : LineEnded (t.take (a + n))) :
    LineEnded ((t.drop a).take n) := by
  intro b hb
  refine h b ?_
  rw [List.take_add]
  have hne : (t.drop a).take n ≠ [] := fun hnil => by
    rw [hnil] at hb
    cases hb
  rwa [List.getLast?_append_of_ne_nil _ hne]

/-- The turns up to a place, if no reading ended within a turn. -/
theorem items_add (hapart : x.Apart R) (ha : x.Mark a) (hn : a + n ≤ x.transcript.length)
    (hended : LineEnded (x.transcript.take (a + n))) :
    x.items R p 0 (a + n) = x.items R p 0 a ++ x.items R p a n := by
  unfold items piece
  rw [List.drop_zero, ← List.map_append, List.take_add]
  rcases ha.read with rfl | hmem
  · rfl
  congr 1
  refine assistantTurns_append ha.ended ?_
  have hpiece := lineEnded_piece hended
  have hle : n ≤ completePrefix (x.transcript.drop a) :=
    le_completePrefix (by rw [List.length_drop]; omega) hpiece
  have hsplit : x.behind a = (x.transcript.drop a).take n ++
      ((x.transcript.drop a).drop n).take (completePrefix (x.transcript.drop a) - n) := by
    rw [behind, piece, ← List.take_add, Nat.add_sub_of_le hle]
  have hfresh := hapart a hmem
  rw [hsplit, entriesOf_append hpiece] at hfresh
  exact hfresh.of_append

/-- A turn that is stored, of what a hook read, says the text. -/
def Told (R : Reader) (p : StopPayload) (x : Listening) (t : String) : Prop :=
  ∃ a n turn, x.Mark a ∧ x.Mark (a + n) ∧ Carries R p.cwd (x.piece a n) turn t ∧ p.item turn ∈ x.stored

theorem Captured.told (ha : x.Captured R p a) :
    ∀ t ∈ (entriesOf R (x.transcript.take a)).flatMap said, x.Told R p t := by
  induction ha with
  | zero =>
    intro t ht
    rw [List.take_zero] at ht
    exact absurd ht List.not_mem_nil
  | @next a n ha hn hstored ih =>
    intro t ht
    rw [List.take_add, entriesOf_append ha.mark.ended, List.flatMap_append] at ht
    rcases List.mem_append.mp ht with hbefore | hpiece
    · exact ih t hbefore
    · obtain ⟨turn, hturn, hcarries⟩ := said_in_turn hpiece
      exact ⟨a, n, turn, ha.mark, hn, hcarries, hstored _ (List.mem_map_of_mem hturn)⟩

theorem Captured.stored (hapart : x.Apart R) (ha : x.Captured R p a) :
    ∀ it ∈ x.items R p 0 a, it ∈ x.stored := by
  induction ha with
  | zero =>
    intro it hit
    rw [items, piece, List.take_zero] at hit
    exact absurd hit List.not_mem_nil
  | next ha hn hstored ih =>
    intro it hit
    rw [items_add hapart ha.mark hn.within hn.ended] at hit
    exact (List.mem_append.mp hit).elim (ih it) (hstored it)

end Listening

open Listening

/-- **A line that is longer than a reading stalls the session's hooks**: they read nothing,
however the transcript grows behind it. -/
theorem long_line_stalls {x : Listening} (hlong : x.offset + stopReadLimit ≤ x.transcript.length)
    (hline : newline ∉ x.chunk x.offset) (more : List UInt8) :
    completePrefix ({ x with transcript := x.transcript ++ more }.chunk x.offset) = 0 := by
  have hsame : ({ x with transcript := x.transcript ++ more } : Listening).chunk x.offset =
      x.chunk x.offset := by
    rw [chunk, readFrom_eq (by rw [List.length_append]; omega), chunk, readFrom_eq (by omega),
      List.drop_append_of_le_length (by omega),
      List.take_append_of_le_length (by rw [List.length_drop]; omega)]
  rw [hsame]
  unfold completePrefix
  rw [List.findIdx?_eq_none_iff.mpr]
  intro b hb
  have hne : b ≠ newline := fun heq => hline (heq ▸ List.mem_reverse.mp hb)
  simpa using hne

/-- A line `u` is a typed message; any other is said by the assistant. -/
def plainReader : Reader where
  entry line :=
    if line = [117] then some (.obj [("type", .str "user"), ("message", .obj [("content", .str "u")])])
    else
      let text := String.ofList (line.map fun b => Char.ofNat b.toNat)
      some (.obj [("type", .str "assistant"), ("message", .obj [("content",
        .arr [.obj [("type", .str "text"), ("text", .str text)]])])])
  instant s := (Timestamps.parseTimestampMs s).toOption

/-- Two turns; the hook after the first fails and is read again with the second. -/
def twoStops : List Step :=
  [.grow [117, 10, 97, 10], .readOffset, .fire 0, .fail 0 1, .readOffset, .grow [117, 10, 98, 10],
    .readOffset, .fire 1, .fire 0, .store 1, .save 1]

theorem twoStops_apart : (run plainReader ⟨"s", none⟩ twoStops).Apart plainReader := by
  unfold Listening.Apart
  decide +kernel

end Transcript
end PolisMemory

/-
# What following the continuations gives

A page keeps the first items behind its place, as many as the budget leaves,
and its continuation is behind the last of them; only where the budget leaves
none, or cuts the last page, which has no continuation, is something lost
(`page_spec`). So following the continuations from the start gives every item
of the scope, each once and in order, if and only if every page that is asked
for fits (`inspection_complete_iff`).

Key definitions: `Lake.left`, `Lake.pageReader`, `Lake.PageFits`.
Key theorems: `Lake.page_spec`, `Lake.follow_walk`, `inspection_complete_iff`.
-/
import PolisMemory.Inspection
import PolisMemory.Paging

namespace PolisMemory

open Tables JsonText

namespace Lake

variable {h : SearchHost} {lake : Lake} {req : SearchRequest} {scope f : ScopeFilter}
  {calls : ℕ → SearchCall} {call : SearchCall} {after : ℤ}

/-! ### The items behind a place -/

/-- The items of the scope behind a seq. -/
def left (lake : Lake) (f : ScopeFilter) (after : ℤ) : List LakeItem :=
  (lake.items f).filter fun it => after < it.seq

theorem seq_item (lake : Lake) (e : LedgerEventRow) : (lake.item e).seq = e.seq := rfl

theorem items_sorted (lake : Lake) (f : ScopeFilter) :
    (lake.items f).Pairwise fun a b => a.seq < b.seq := by
  unfold items
  rw [List.pairwise_map]
  exact lake.base.ledger.byKey.filter _

theorem left_sorted (lake : Lake) (f : ScopeFilter) (after : ℤ) :
    (lake.left f after).Pairwise fun a b => a.seq < b.seq := (lake.items_sorted f).filter _

theorem listLakeItemsSince_eq (after : ℤ) (limit : ℕ) :
    lake.listLakeItemsSince after limit f = (lake.left f after).take limit := by
  unfold listLakeItemsSince left items
  rw [List.filter_map, ← List.map_take, List.filter_filter]
  congr 2

/-- Behind the seq 0 are all the items. -/
theorem left_zero : lake.left f 0 = lake.items f := by
  unfold left
  rw [List.filter_eq_self]
  intro it hit
  obtain ⟨e, he, rfl⟩ := List.mem_map.mp hit
  have hseq := lake.fromOne e (List.mem_of_mem_filter he)
  exact decide_eq_true (by rw [seq_item]; omega)

/-- Behind an item is what follows it. -/
theorem left_seq {it : LakeItem} {k : ℕ} (hit : (lake.left f after)[k]? = some it) :
    lake.left f it.seq = (lake.left f after).drop (k + 1) := by
  have hmem : it ∈ lake.left f after := List.mem_of_getElem? hit
  have hafter : after < it.seq := by
    unfold left at hmem
    simpa using (List.mem_filter.mp hmem).2
  rw [← Paging.filter_key_lt (lake.left_sorted f after) hit]
  unfold left
  rw [List.filter_filter]
  congr 1
  funext other
  have himp : it.seq < other.seq → after < other.seq := fun hlt => hafter.trans hlt
  by_cases hlt : it.seq < other.seq
  · simp [hlt, himp hlt]
  · simp [hlt]

/-! ### A page -/

/-- The cursor of a place. -/
def cursorAt (h : SearchHost) (lake : Lake) (req : SearchRequest) (f : ScopeFilter) (after : ℤ) : Value :=
  req.inspectionCursor h f lake.snapshotHead.2 after

/-- The page of a place, before the budget. -/
def unbudgeted (h : SearchHost) (lake : Lake) (req : SearchRequest) (f : ScopeFilter) (call : SearchCall)
    (after : ℤ) : AnswerPack :=
  traced h { req with cursor := some (lake.cursorAt h req f after) } f call
    (lake.pageOver h req f after (lake.listLakeItemsSince after (req.limitOf + 1) f))

/-- The page of a place, as the budget leaves it, with its count and its
continuation. -/
@[irreducible] def budgeted (h : SearchHost) (lake : Lake) (req : SearchRequest) (f : ScopeFilter) (call : SearchCall)
    (after : ℤ) : AnswerPack :=
  answered h { req with cursor := some (lake.cursorAt h req f after) } f
    ((lake.unbudgeted h req f call after).enforceBudget req.maxBytes)

/-- A request that is accepted without a cursor is accepted with one that is
not too long. -/
theorem resolve_cursor (hfirst : req.cursor = none) (hok : req.resolve scope = .ok f) (cursor : Value) :
    SearchRequest.resolve { req with cursor := some cursor } scope =
      if 2048 < cursor.size then .error ⟨"cursor exceeds 2048 bytes"⟩ else .ok f := by
  unfold SearchRequest.resolve at hok ⊢
  have hroles : SearchRequest.roles { req with cursor := some cursor } = req.roles := rfl
  have hbytes : SearchRequest.maxBytes { req with cursor := some cursor } = req.maxBytes := rfl
  rw [hroles, hbytes]
  cases hr : req.roles with
  | error e =>
    rw [hr] at hok
    cases hok
  | ok roles =>
    rw [hr] at hok
    simp only [bind, Except.bind, hfirst, Option.any_none, Option.any_some, decide_eq_true_eq] at hok ⊢
    split_ifs at hok ⊢ <;> simp_all

/-- **The page of a place**, unless its cursor is too long, the place is none,
or the page is over the budget even as the budget leaves it. -/
theorem page_eq (lake : Lake) (call : SearchCall) (after : ℤ) (hfirst : req.cursor = none) (hok : req.resolve scope = .ok f) :
    lake.page h req scope call (lake.cursorAt h req f after) =
      if 2048 < (lake.cursorAt h req f after).size then .error ⟨"cursor exceeds 2048 bytes"⟩
      else if after < 0 then .error ⟨"invalid inspection position"⟩
      else if req.maxBytes < (lake.budgeted h req f call after).size then
        .error ⟨"response metadata exceeds requested budget"⟩
      else .ok (lake.budgeted h req f call after) := by
  have hresolve := resolve_cursor hfirst hok (lake.cursorAt h req f after)
  have hpage : lake.inspectPage h { req with cursor := some (lake.cursorAt h req f after) } f
      (lake.cursorAt h req f after) =
        if after < 0 then .error ⟨"invalid inspection position"⟩
        else .ok (lake.pageOver h req f after (lake.listLakeItemsSince after (req.limitOf + 1) f)) := by
    have hmode : ((lake.cursorAt h req f after).get "mode").bind Value.asStr = some "inspection" := rfl
    have hhead : ((lake.cursorAt h req f after).get "head").bind Value.asStr = some lake.snapshotHead.2 := rfl
    have hquery : ((lake.cursorAt h req f after).get "query").bind Value.asStr =
        some (req.inspectionKey h f) := rfl
    have hplace : (((lake.cursorAt h req f after).get "after").bind Value.asInt).filter (fun n => 0 ≤ n) =
        if after < 0 then none else some after := by
      refine (Option.filter_some ..).trans ?_
      by_cases hneg : after < 0
      · rw [if_pos hneg, if_neg (by simpa using hneg)]
      · rw [if_neg hneg, if_pos (by simpa using hneg)]
    have hkey (cursor : Option Value) : SearchRequest.inspectionKey { req with cursor := cursor } h f =
        req.inspectionKey h f := rfl
    unfold inspectPage
    rw [hmode, hhead, hkey, hquery, hplace]
    simp only [ne_eq, not_true_eq_false, or_self, if_false]
    split_ifs <;> rfl
  unfold page searchRequest budgeted
  rw [hresolve]
  split_ifs with hlong hneg hover
  · rfl
  · simp only [bind, Except.bind, hpage, if_pos hneg]
  · simp only [bind, Except.bind, hpage, if_neg hneg]
    exact if_pos hover
  · simp only [bind, Except.bind, hpage, if_neg hneg]
    exact if_neg hover

theorem limitOf_pos (req : SearchRequest) : 0 < req.limitOf := by
  unfold SearchRequest.limitOf clampAnswerPackLimit
  omega

theorem hits_unbudgeted : (lake.unbudgeted h req f call after).promptHits =
    ((lake.left f after).take req.limitOf).map lake.pageHit := by
  have hhits : (lake.unbudgeted h req f call after).promptHits =
      ((lake.listLakeItemsSince after (req.limitOf + 1) f).take req.limitOf).map lake.pageHit := rfl
  rw [hhits, listLakeItemsSince_eq, List.take_take, Nat.min_eq_left (Nat.le_succ _)]

theorem bare_unbudgeted : (lake.unbudgeted h req f call after).Bare := ⟨rfl, rfl, rfl, rfl, rfl, rfl, rfl⟩

/-- Before the budget a page is continued behind its last item, unless it is
the last. -/
theorem continuation_unbudgeted : (lake.unbudgeted h req f call after).retrieval.continuation =
    if req.limitOf < (lake.left f after).length then
      some (lake.cursorAt h req f
        ((((lake.left f after).take req.limitOf).getLast?.map LakeItem.seq).getD after))
    else none := by
  have hcontinuation : (lake.unbudgeted h req f call after).retrieval.continuation =
      (lake.pageReport h req f after (lake.listLakeItemsSince after (req.limitOf + 1) f)).continuation := rfl
  have hmore : req.limitOf < ((lake.left f after).take (req.limitOf + 1)).length ↔
      req.limitOf < (lake.left f after).length := by
    rw [List.length_take]
    omega
  rw [hcontinuation, listLakeItemsSince_eq, pageReport]
  simp only [hmore, List.take_take, Nat.min_eq_left (Nat.le_succ _)]
  rfl

theorem hits_budgeted : (lake.budgeted h req f call after).promptHits =
    ((lake.unbudgeted h req f call after).enforceBudget req.maxBytes).promptHits := by
  unfold budgeted
  generalize (lake.unbudgeted h req f call after).enforceBudget req.maxBytes = p
  rfl

theorem continuation_budgeted {p : AnswerPack}
    (hp : (lake.unbudgeted h req f call after).enforceBudget req.maxBytes = p) :
    (lake.budgeted h req f call after).retrieval.continuation =
      if p.retrieval.continuation.isSome then
        (p.promptHits.getLast?.map fun hit =>
          req.inspectionCursor h f p.retrieval.snapshotHash hit.item.seq).or p.retrieval.continuation
      else p.retrieval.continuation := by
  unfold budgeted answered
  rw [hp]
  simp only [Option.isSome_some, true_and]
  rfl

/-- **What a page keeps**, and where the next one is: behind the last item it
keeps, or behind the limit if it keeps none. -/
theorem page_spec (h : SearchHost) (lake : Lake) (req : SearchRequest) (f : ScopeFilter) (call : SearchCall)
    (after : ℤ) : ∃ k ≤ req.limitOf, k ≤ (lake.left f after).length ∧
    (lake.budgeted h req f call after).promptHits.map PackPromptHit.item = (lake.left f after).take k ∧
    ((lake.left f after).length ≤ req.limitOf →
      (lake.budgeted h req f call after).retrieval.continuation = none ∧
        (k = (lake.left f after).length ↔
          lake.left f after = [] ∨ (lake.unbudgeted h req f call after).size ≤ req.maxBytes)) ∧
    (req.limitOf < (lake.left f after).length → ∃ j it, (lake.left f after)[j]? = some it ∧
      (lake.budgeted h req f call after).retrieval.continuation = some (lake.cursorAt h req f it.seq) ∧
      (if 0 < k then j + 1 = k else j + 1 = req.limitOf) ∧
        (0 < k ↔ (lake.unbudgeted h req f call after).size ≤ req.maxBytes ∨
          (lake.unbudgeted h req f call after).firstAlone.size ≤ req.maxBytes)) := by
  let xs := lake.left f after
  let u := lake.unbudgeted h req f call after
  have hbare : u.Bare := bare_unbudgeted
  obtain ⟨e, he⟩ : ∃ e, u.enforceBudget req.maxBytes = e := ⟨_, rfl⟩
  obtain ⟨k, hk, hhits, ⟨errors, hreport⟩, hall, hsome⟩ :=
    AnswerPack.enforce_page hbare req.maxBytes
  rw [he] at hhits hreport
  have hu : u.promptHits = (xs.take req.limitOf).map lake.pageHit := hits_unbudgeted
  have hlen : u.promptHits.length = min req.limitOf xs.length := by
    rw [hu, List.length_map, List.length_take]
  rw [hlen] at hk hall hsome
  have hkept : e.promptHits = (xs.take k).map lake.pageHit := by
    rw [hhits, hu, ← List.map_take, List.take_take, Nat.min_eq_left (hk.trans (Nat.min_le_left _ _))]
  have hcontinuation : e.retrieval.continuation = u.retrieval.continuation := by rw [hreport]
  have hcontinued : u.retrieval.continuation = if req.limitOf < xs.length then
      some (lake.cursorAt h req f (((xs.take req.limitOf).getLast?.map LakeItem.seq).getD after))
    else none := continuation_unbudgeted
  have hitems : ((xs.take k).map lake.pageHit).map PackPromptHit.item = xs.take k := by
    rw [List.map_map]
    exact List.map_id _
  refine ⟨k, hk.trans (Nat.min_le_left _ _), hk.trans (Nat.min_le_right _ _), ?_, fun hlast => ?_,
    fun hmore => ?_⟩
  · rw [hits_budgeted, he, hkept, hitems]
  · have hend : u.retrieval.continuation = none := hcontinued.trans (if_neg (Nat.not_lt.mpr hlast))
    have hmin : min req.limitOf xs.length = xs.length := Nat.min_eq_right hlast
    refine ⟨?_, ?_⟩
    · rw [continuation_budgeted he, hcontinuation, hend, if_neg (by simp)]
    · rw [hmin] at hall
      have hnil : u.promptHits = [] ↔ xs = [] := by
        rw [hu, List.map_eq_nil_iff, List.take_of_length_le hlast]
      rw [hall, hnil]
  · have hmin : min req.limitOf xs.length = req.limitOf := Nat.min_eq_left hmore.le
    rw [hmin] at hk hsome
    have hpos := limitOf_pos req
    have hnext : u.retrieval.continuation = some (lake.cursorAt h req f
        (((xs.take req.limitOf).getLast?.map LakeItem.seq).getD after)) := hcontinued.trans (if_pos hmore)
    have hanswer : (lake.budgeted h req f call after).retrieval.continuation =
        ((xs.take k).getLast?.map fun it => lake.cursorAt h req f it.seq).or u.retrieval.continuation := by
      have hhash : e.retrieval.snapshotHash = lake.snapshotHead.2 := by
        rw [hreport]
        rfl
      rw [continuation_budgeted he, hcontinuation, hkept, hhash, if_pos (by rw [hnext]; rfl),
        List.getLast?_map, Option.map_map]
      rfl
    have hlast (n : ℕ) (hn : 0 < n) (hle : n ≤ req.limitOf) : ∃ it, xs[n - 1]? = some it ∧
        (xs.take n).getLast? = some it := by
      have hlt : n - 1 < xs.length := by omega
      refine ⟨xs[n - 1], List.getElem?_eq_getElem hlt, ?_⟩
      rw [List.getLast?_eq_getElem?, List.length_take, Nat.min_eq_left (by omega),
        List.getElem?_take_of_lt (by omega), List.getElem?_eq_getElem hlt]
    by_cases hk0 : 0 < k
    · obtain ⟨it, hit, hgetLast⟩ := hlast k hk0 hk
      refine ⟨k - 1, it, hit, ?_, ?_, hsome hpos⟩
      · rw [hanswer, hgetLast]
        rfl
      · rw [if_pos hk0]
        omega
    · obtain ⟨it, hit, hgetLast⟩ := hlast req.limitOf hpos le_rfl
      refine ⟨req.limitOf - 1, it, hit, ?_, ?_, hsome hpos⟩
      · rw [hanswer, hnext, hgetLast, Nat.eq_zero_of_not_pos hk0]
        rfl
      · rw [if_neg hk0]
        omega

/-! ### The walk -/

/-- The place of a cursor. -/
def placeOf (cursor : Value) : Option ℤ := (cursor.get "after").bind Value.asInt

/-- The pages of a request, as a reader of the items behind a seq. -/
def pageReader (h : SearchHost) (lake : Lake) (req : SearchRequest) (scope f : ScopeFilter)
    (calls : ℕ → SearchCall) : Paging.Reader ℤ := fun i after =>
  match lake.page h req scope (calls i) (lake.cursorAt h req f after) with
  | .error _ => none
  | .ok p => some ⟨p.promptHits.length, p.retrieval.continuation.bind placeOf⟩

/-- An answered page is the one of its place. -/
theorem page_ok (hfirst : req.cursor = none) (hok : req.resolve scope = .ok f) {p : AnswerPack}
    (hp : lake.page h req scope call (lake.cursorAt h req f after) = .ok p) :
    (lake.cursorAt h req f after).size ≤ 2048 ∧ 0 ≤ after ∧
      (lake.budgeted h req f call after).size ≤ req.maxBytes ∧ p = lake.budgeted h req f call after := by
  rw [page_eq lake call after hfirst hok] at hp
  generalize lake.budgeted h req f call after = q at hp ⊢
  split_ifs at hp with hlong hneg hover
  exact ⟨Nat.not_lt.mp hlong, not_lt.mp hneg, Nat.not_lt.mp hover, (Except.ok.inj hp).symm⟩

/-- A page's continuation is none, or the cursor of a place. -/
theorem continuation_cases (hfirst : req.cursor = none) (hok : req.resolve scope = .ok f) {p : AnswerPack}
    (hp : lake.page h req scope call (lake.cursorAt h req f after) = .ok p) :
    ∃ next : Option ℤ, p.retrieval.continuation = next.map (lake.cursorAt h req f) ∧
      p.promptHits.map PackPromptHit.item = (lake.left f after).take p.promptHits.length := by
  obtain ⟨-, -, -, rfl⟩ := page_ok hfirst hok hp
  obtain ⟨k, -, hk, hitems, hlast, hmore⟩ :=
    page_spec h lake req f call after
  have hlength : (lake.budgeted h req f call after).promptHits.length = k := by
    have hlen := congrArg List.length hitems
    rw [List.length_map, List.length_take, Nat.min_eq_left hk] at hlen
    exact hlen
  rw [hlength]
  by_cases hle : (lake.left f after).length ≤ req.limitOf
  · exact ⟨none, (hlast hle).1, hitems⟩
  · obtain ⟨j, it, -, hcontinuation, -⟩ := hmore (Nat.not_le.mp hle)
    exact ⟨some it.seq, hcontinuation, hitems⟩

/-- **Following the continuations** is a walk over the pages. -/
theorem follow_walk (lake : Lake) (calls : ℕ → SearchCall) (hfirst : req.cursor = none) (hok : req.resolve scope = .ok f) (n i : ℕ) (after : ℤ) :
    match lake.follow h req scope calls n i (lake.cursorAt h req f after) with
    | .error _ => Paging.walk (lake.pageReader h req scope f calls) (lake.left f) n i after = none
    | .ok (hits, rest) => ∃ place : Option ℤ, rest = place.map (lake.cursorAt h req f) ∧
        Paging.walk (lake.pageReader h req scope f calls) (lake.left f) n i after =
          some (hits.map PackPromptHit.item, place) := by
  induction n generalizing i after with
  | zero => exact ⟨some after, rfl, rfl⟩
  | succ n ih =>
    unfold follow
    have hread : lake.pageReader h req scope f calls i after =
      match lake.page h req scope (calls i) (lake.cursorAt h req f after) with
      | .error _ => none
      | .ok p => some ⟨p.promptHits.length, p.retrieval.continuation.bind placeOf⟩ := rfl
    cases hp : lake.page h req scope (calls i) (lake.cursorAt h req f after) with
    | error e =>
      rw [hp] at hread
      exact Paging.walk_refused hread
    | ok p =>
      obtain ⟨next, hnext, hitems⟩ := continuation_cases hfirst hok hp
      rw [hp] at hread
      dsimp only at hread ⊢
      rw [hnext] at hread ⊢
      cases next with
      | none =>
        refine ⟨none, rfl, (Paging.walk_last hread).trans ?_⟩
        rw [hitems]
      | some next =>
        have hrest := ih (i + 1) next
        have hwalk := @Paging.walk_next _ _ _ (lake.left f) n _ _ _ _ hread
        dsimp only [Option.map_some]
        cases hfollow : lake.follow h req scope calls n (i + 1) (lake.cursorAt h req f next) with
        | error e =>
          rw [hfollow] at hrest
          exact hwalk.trans (congrArg (Option.map _) hrest)
        | ok out =>
          obtain ⟨hits, rest⟩ := out
          rw [hfollow] at hrest
          obtain ⟨place, hrest, hgot⟩ := hrest
          refine ⟨place, hrest, hwalk.trans ?_⟩
          rw [hgot, Option.map_some, List.map_append, hitems]

/-! ### When nothing is lost -/

/-- What a page of a place must meet: the cursor is not too long; the page as
the budget leaves it is within the budget with its count; and the last page is
within it as it is, another one as it is or cut to its first item. -/
def PageFits (h : SearchHost) (lake : Lake) (req : SearchRequest) (f : ScopeFilter) (call : SearchCall)
    (after : ℤ) : Prop :=
  (lake.cursorAt h req f after).size ≤ 2048 ∧
    (lake.budgeted h req f call after).size ≤ req.maxBytes ∧
    if (lake.left f after).length ≤ req.limitOf then
      lake.left f after = [] ∨ (lake.unbudgeted h req f call after).size ≤ req.maxBytes
    else
      (lake.unbudgeted h req f call after).size ≤ req.maxBytes ∨
        (lake.unbudgeted h req f call after).firstAlone.size ≤ req.maxBytes

/-- What the reader of a place answers. -/
theorem pageReader_eq_some (hfirst : req.cursor = none) (hok : req.resolve scope = .ok f) {i keep : ℕ}
    {next : Option ℤ} (hread : lake.pageReader h req scope f calls i after = some ⟨keep, next⟩) :
    (lake.cursorAt h req f after).size ≤ 2048 ∧ 0 ≤ after ∧
      (lake.budgeted h req f (calls i) after).size ≤ req.maxBytes ∧
      keep = (lake.budgeted h req f (calls i) after).promptHits.length ∧
      next = (lake.budgeted h req f (calls i) after).retrieval.continuation.bind placeOf := by
  unfold pageReader at hread
  split at hread
  · cases hread
  · next p hp =>
    obtain ⟨hlong, hneg, hover, rfl⟩ := page_ok hfirst hok hp
    cases hread
    exact ⟨hlong, hneg, hover, rfl, rfl⟩

theorem length_budgeted {k : ℕ} (hk : k ≤ (lake.left f after).length)
    (hitems : (lake.budgeted h req f call after).promptHits.map PackPromptHit.item =
      (lake.left f after).take k) : (lake.budgeted h req f call after).promptHits.length = k := by
  have hlen := congrArg List.length hitems
  rw [List.length_map, List.length_take, Nat.min_eq_left hk] at hlen
  exact hlen

/-- The next page's place is an item's, at or behind the last that is kept. -/
theorem pageReader_next (hfirst : req.cursor = none) (hok : req.resolve scope = .ok f) {i keep : ℕ}
    {next : ℤ} (hread : lake.pageReader h req scope f calls i after = some ⟨keep, some next⟩) :
    ∃ j it, (lake.left f after)[j]? = some it ∧ next = it.seq ∧ keep ≤ j + 1 := by
  obtain ⟨-, -, -, rfl, hnext⟩ := pageReader_eq_some hfirst hok hread
  obtain ⟨k, -, hk, hitems, hlast, hmore⟩ := page_spec h lake req f (calls i) after
  rw [length_budgeted hk hitems]
  by_cases hle : (lake.left f after).length ≤ req.limitOf
  · rw [(hlast hle).1] at hnext
    cases hnext
  · obtain ⟨j, it, hit, hcontinuation, hj, -⟩ := hmore (Nat.not_le.mp hle)
    rw [hcontinuation] at hnext
    refine ⟨j, it, hit, Option.some.inj hnext, ?_⟩
    split_ifs at hj <;> omega

theorem pageReader_advances (hfirst : req.cursor = none) (hok : req.resolve scope = .ok f) :
    Paging.Advances (lake.pageReader h req scope f calls) (lake.left f) := by
  intro i after keep next hread
  obtain ⟨j, it, hit, rfl, hkeep⟩ := pageReader_next hfirst hok hread
  exact ⟨j + 1, left_seq hit, hkeep, Nat.succ_pos j, (List.getElem?_eq_some_iff.mp hit).1⟩

/-- **A page loses nothing** if and only if it fits. -/
theorem whole_iff (hfirst : req.cursor = none) (hok : req.resolve scope = .ok f) (hafter : 0 ≤ after)
    (i : ℕ) : Paging.Whole (lake.pageReader h req scope f calls) (lake.left f) i after ↔
      lake.PageFits h req f (calls i) after := by
  obtain ⟨k, hlimit, hk, hitems, hlast, hmore⟩ :=
    page_spec h lake req f (calls i) after
  have hlength := length_budgeted hk hitems
  have hpage := page_eq (h := h) lake (calls i) after hfirst hok
  unfold Paging.Whole pageReader PageFits
  by_cases hlong : 2048 < (lake.cursorAt h req f after).size
  · rw [hpage, if_pos hlong]
    exact ⟨False.elim, fun h => absurd hlong (Nat.not_lt.mpr h.1)⟩
  by_cases hover : req.maxBytes < (lake.budgeted h req f (calls i) after).size
  · rw [hpage, if_neg hlong, if_neg (not_lt.mpr hafter), if_pos hover]
    exact ⟨False.elim, fun h => absurd hover (Nat.not_lt.mpr h.2.1)⟩
  rw [hpage, if_neg hlong, if_neg (not_lt.mpr hafter), if_neg hover]
  dsimp only
  rw [hlength]
  have hrest {P : Prop} : ((lake.cursorAt h req f after).size ≤ 2048 ∧
      (lake.budgeted h req f (calls i) after).size ≤ req.maxBytes ∧ P) ↔ P :=
    ⟨fun h => h.2.2, fun h => ⟨Nat.not_lt.mp hlong, Nat.not_lt.mp hover, h⟩⟩
  rw [hrest]
  by_cases hle : (lake.left f after).length ≤ req.limitOf
  · obtain ⟨hend, hall⟩ := hlast hle
    rw [hend, if_pos hle, ← hall]
    show (lake.left f after).length ≤ k ↔ _
    omega
  · obtain ⟨j, it, hit, hcontinuation, hj, hsome⟩ := hmore (Nat.not_le.mp hle)
    have hplace : (Option.some (lake.cursorAt h req f it.seq)).bind placeOf = some it.seq := rfl
    rw [hcontinuation, if_neg hle, ← hsome, hplace]
    show lake.left f it.seq = (lake.left f after).drop k ↔ _
    rw [left_seq hit]
    have hpos := limitOf_pos req
    have hj' := (List.getElem?_eq_some_iff.mp hit).1
    constructor
    · intro hdrop
      have hlen := congrArg List.length hdrop
      rw [List.length_drop, List.length_drop] at hlen
      omega
    · intro hk0
      rw [if_pos hk0] at hj
      rw [hj]

/-- The places that are asked for are not negative. -/
theorem asked_nonneg (hfirst : req.cursor = none) (hok : req.resolve scope = .ok f) {i j : ℕ} {a b : ℤ}
    (ha : 0 ≤ a) (hasks : Paging.Asks (lake.pageReader h req scope f calls) i a j b) : 0 ≤ b := by
  induction hasks with
  | here => exact ha
  | next hpage hrest ih =>
    apply ih
    obtain ⟨j, it, hit, rfl, -⟩ := pageReader_next hfirst hok hpage
    have hmem : it ∈ lake.items f := List.mem_of_mem_filter (List.mem_of_getElem? hit)
    obtain ⟨e, he, rfl⟩ := List.mem_map.mp hmem
    have hseq := lake.fromOne e (List.mem_of_mem_filter he)
    rw [seq_item]
    omega

/-- Following the continuations from the start gives every item of the scope. -/
def Complete (h : SearchHost) (lake : Lake) (req : SearchRequest) (scope f : ScopeFilter)
    (calls : ℕ → SearchCall) : Prop :=
  ∃ n hits, lake.follow h req scope calls n 0 (lake.cursorAt h req f 0) = .ok (hits, none) ∧
    hits.map PackPromptHit.item = lake.items f

theorem complete_iff_walk (hfirst : req.cursor = none) (hok : req.resolve scope = .ok f) :
    lake.Complete h req scope f calls ↔
      ∃ n, Paging.walk (lake.pageReader h req scope f calls) (lake.left f) n 0 0 =
        some (lake.left f 0, none) := by
  apply exists_congr
  intro n
  have hwalk := follow_walk (h := h) lake calls hfirst hok n 0 0
  rw [left_zero]
  cases hfollow : lake.follow h req scope calls n 0 (lake.cursorAt h req f 0) with
  | error e =>
    rw [hfollow] at hwalk
    rw [show Paging.walk _ (lake.left f) n 0 0 = none from hwalk]
    exact ⟨fun ⟨_, hhits, _⟩ => (nomatch hhits), fun hnone => (nomatch hnone)⟩
  | ok out =>
    obtain ⟨hits, rest⟩ := out
    rw [hfollow] at hwalk
    obtain ⟨place, hrest, hgot⟩ := hwalk
    rw [hgot]
    constructor
    · intro ⟨hits', hhits, hall⟩
      have hboth := Prod.mk.inj (Except.ok.inj hhits)
      rw [hrest, Option.map_eq_none_iff] at hboth
      rw [hboth.1, hboth.2, hall]
    · intro hall
      have hboth := Prod.mk.inj (Option.some.inj hall)
      rw [hboth.2] at hrest
      exact ⟨hits, by rw [hrest]; rfl, hboth.1⟩

/-- A last page that is over the budget loses something. -/
theorem incomplete_of_last (hfirst : req.cursor = none) (hok : req.resolve scope = .ok f) {i : ℕ}
    (hasks : Paging.Asks (lake.pageReader h req scope f calls) 0 0 i after)
    (hlast : (lake.left f after).length ≤ req.limitOf) (hsome : 0 < (lake.left f after).length)
    (hover : req.maxBytes < (lake.unbudgeted h req f (calls i) after).size) :
    ¬ lake.Complete h req scope f calls := by
  intro hcomplete
  rw [complete_iff_walk hfirst hok, Paging.walk_eq_iff (pageReader_advances hfirst hok)] at hcomplete
  have hnonneg := asked_nonneg hfirst hok le_rfl hasks
  have hfits := (whole_iff hfirst hok hnonneg i).mp (hcomplete i after hasks)
  unfold PageFits at hfits
  rw [if_pos hlast] at hfits
  rcases hfits.2.2 with hnil | hle
  · rw [hnil] at hsome
    exact absurd hsome (Nat.lt_irrefl 0)
  · exact absurd hover (Nat.not_lt.mpr hle)

end Lake

/-- A host whose hashes are of the length that a hash has. -/
def SearchHost.plain : SearchHost where
  toHost := { Host.plain with sha256 := fun _ => String.ofList (List.replicate 64 'a') }
  debug _ _ _ _ := ""

/-- The event of a prompt. -/
def askedEvent (seq : ℤ) : LedgerEventRow :=
  let hash := String.ofList (List.replicate 64 'a')
  ⟨seq, 1700000000000, "prompt", "local", some seq, some "s1", none, none, none, hash, hash, hash⟩

/-- A prompt. -/
def askedPrompt (id : ℤ) (body : String) : PromptRow :=
  ⟨id, 1700000000000, some "user", none, none, none, none, none, none, body, body, none, none, none, none,
    none⟩

/-- Two prompts. -/
def twoPrompts : Lake where
  toNoteStore := NoteStore.fresh { Store.empty with
    ledger := ⟨[askedEvent 1, askedEvent 2], by decide⟩
    prompts := ⟨[askedPrompt 1 "alpha one", askedPrompt 2 "alpha two"], by decide⟩ } ∅ ∅ ∅ ∅
  promptColumns _ := ⟨some "app", none, none, none, none, none, none⟩
  browseEvents := ∅
  fromOne := by decide

/-- No scope. -/
def everything : ScopeFilter := ⟨none, none, [], none, none, none, none, none⟩

/-- Two hits a page, within the least budget. -/
def twoHits : SearchRequest := ⟨some "alpha", none, some 2, ⟨[], none, none⟩, some 2, some 1024, none, none⟩

/-- A clock that stands still. -/
def standing (i : ℕ) : SearchCall := ⟨1700000000000, i⟩

theorem twoHits_resolve : twoHits.resolve everything = .ok everything := rfl

/-- Both are on the last page, which is over the budget. -/
theorem last_twoPrompts : (twoPrompts.left everything 0).length = 2 ∧ twoHits.limitOf = 2 ∧
    twoHits.maxBytes <
      (twoPrompts.unbudgeted SearchHost.plain twoHits everything (standing 0) 0).size := by
  decide +kernel

end PolisMemory

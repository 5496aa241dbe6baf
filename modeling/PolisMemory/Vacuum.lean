/-
# A vacuum and the reverts it still permits

`vacuum_retired` deletes the rows that runs up to a horizon retired. A revert
of a later run looks at nothing else that the vacuum writes, so it meets the
same store with rows missing (`Store.swept`). An inverse that goes through goes
through without them as well, to the same rows but for those
(`invertOp_swept`). The two part ways in two places. A link that is put back
is refused where its place is taken, also by a row that is out of sight: the
unique index of the links knows no marks. And a `file` that revived what its
own run had retired gives the link the mark of that run again, whoever has
retired it since, and an older op of the run clears that mark.

Key definitions: `Store.swept`, `Image.markBack`, `undoApart`,
`Store.RevertsAgree`.
Key theorems: `invertOp_swept`, `mark_invertOp`, `revertRun_vacuum_iff`.
-/
import PolisMemory.Dangling

namespace PolisMemory

open Tables

/-- The rows a vacuum deletes, by their keys. -/
structure Sweep where
  nodes : String → Bool
  links : ℤ → Bool
  observations : ℤ → Bool

namespace Store

/-- The store without those rows, and with another journal and horizon. -/
def swept (w : Sweep) (ops : Table OpRow.key) (horizon : Option ℤ) (s : Store) : Store :=
  { s with
    nodes := s.nodes.delete fun n => w.nodes n.id
    links := s.links.delete fun l => w.links l.id
    observations := s.observations.delete fun o => w.observations o.id
    runOps := ops
    revertHorizon := horizon }

/-! ### The inverses without the rows -/

section

variable {h : Host} {w : Sweep} {ops : Table OpRow.key} {horizon : Option ℤ} {s s' : Store}
  {now run byRun : ℤ}

@[simp] theorem links_swept : (s.swept w ops horizon).links = s.links.delete fun l => w.links l.id :=
  rfl

theorem swept_updateNodes {p : NodeRow → Bool} {f : NodeRow → NodeRow} {hf : ∀ r, (f r).id = r.id} :
    ({ s.swept w ops horizon with nodes := (s.swept w ops horizon).nodes.update p f hf } : Store) =
      ({ s with nodes := s.nodes.update p f hf } : Store).swept w ops horizon := by
  unfold swept
  rw [Table.delete_update w.nodes]

theorem swept_updateLinks {p : LinkRow → Bool} {f : LinkRow → LinkRow} {hf : ∀ r, (f r).id = r.id}
    {hi : ∀ r, (f r).dedup = r.dedup} :
    ({ s.swept w ops horizon with links := (s.swept w ops horizon).links.update p f hf hi } : Store) =
      ({ s with links := s.links.update p f hf hi } : Store).swept w ops horizon := by
  unfold swept
  rw [IndexedTable.delete_update w.links]

theorem swept_updateObservations {p : ObservationRow → Bool} {f : ObservationRow → ObservationRow}
    {hf : ∀ r, (f r).id = r.id} :
    ({ s.swept w ops horizon with
        observations := (s.swept w ops horizon).observations.update p f hf } : Store) =
      ({ s with observations := s.observations.update p f hf } : Store).swept w ops horizon := by
  unfold swept
  rw [AutoTable.delete_update w.observations]

theorem swept_retireMade (id : String) :
    (s.swept w ops horizon).retireMade byRun id = (s.retireMade byRun id).swept w ops horizon :=
  swept_updateNodes

theorem swept_unretire (set : RetiredSet) :
    (s.swept w ops horizon).unretire run set = (s.unretire run set).swept w ops horizon := by
  unfold swept unretire
  rw [Table.delete_update w.nodes, IndexedTable.delete_update w.links,
    AutoTable.delete_update w.observations]

theorem swept_reparentBack : ∀ (cs : List (String × String)) (s : Store),
    reparentBack cs (s.swept w ops horizon) = (reparentBack cs s).swept w ops horizon
  | [], _ => rfl
  | (child, parent) :: cs, s => by
    rw [reparentBack, reparentBack, swept_updateNodes]
    exact swept_reparentBack cs _

/-- What is put back with the rows there is put back without them. -/
theorem swept_moveLinksBack : ∀ {moves : List (ℤ × String)} {s s' : Store},
    moveLinksBack moves s = .ok s' →
      moveLinksBack moves (s.swept w ops horizon) = .ok (s'.swept w ops horizon)
  | [], s, s', hs => by
    cases hs
    rfl
  | (l, node) :: moves, s, s', hs => by
    rw [moveLinksBack] at hs
    split at hs
    · cases hs
    rename_i links hre
    rw [moveLinksBack, links_swept, IndexedTable.reindex?_delete w.links hre]
    exact swept_moveLinksBack hs

theorem swept_movePartBack {node part : String} : ∀ {ls : List ℤ} {s s' : Store},
    movePartBack node part ls s = .ok s' →
      movePartBack node part ls (s.swept w ops horizon) = .ok (s'.swept w ops horizon)
  | [], s, s', hs => by
    cases hs
    rfl
  | l :: ls, s, s', hs => by
    rw [movePartBack] at hs
    rw [movePartBack, links_swept]
    cases hl : w.links l with
    | true =>
      -- the link is not there to be put back
      have hnone : (s.links.delete fun l => w.links l.id).get? l = none := by
        rw [IndexedTable.toAutoTable_delete, AutoTable.toTable_delete, Table.get?_delete]
        cases hr : s.links.get? l with
        | none => rfl
        | some r => simp [Table.key_of_get? hr, hl]
      rw [hnone, if_neg (by simp)]
      split at hs
      · split at hs
        · cases hs
        rename_i links hre
        have hback := swept_movePartBack hs
        have hsame : ({ s with links := links } : Store).swept w ops horizon =
            s.swept w ops horizon := by
          unfold swept
          rw [IndexedTable.delete_reindex? w.links hre hl]
        rwa [hsame] at hback
      · exact swept_movePartBack hs
    | false =>
      have hget : (s.links.delete fun l => w.links l.id).get? l = s.links.get? l := by
        rw [IndexedTable.toAutoTable_delete, AutoTable.toTable_delete, Table.get?_delete]
        cases hr : s.links.get? l with
        | none => rfl
        | some r => simp [Table.key_of_get? hr, hl]
      rw [hget]
      split at hs
      · rename_i hpart
        rw [if_pos hpart]
        split at hs
        · cases hs
        rename_i links hre
        rw [IndexedTable.reindex?_delete w.links hre]
        exact swept_movePartBack hs
      · rename_i hpart
        rw [if_neg hpart]
        exact swept_movePartBack hs

theorem swept_unsplit {node : String} : ∀ {created : List CreatedPart} {s s' : Store},
    unsplit byRun node created s = .ok s' →
      unsplit byRun node created (s.swept w ops horizon) = .ok (s'.swept w ops horizon)
  | [], s, s', hs => by
    cases hs
    rfl
  | c :: created, s, s', hs => by
    rw [unsplit] at hs
    obtain ⟨s₁, hmove, hs⟩ := bind_eq_ok.mp hs
    rw [unsplit, swept_movePartBack hmove]
    change unsplit byRun node created ((s₁.swept w ops horizon).retireMade byRun c.id) = _
    rw [swept_retireMade]
    exact swept_unsplit hs

theorem swept_unmerge {m : MergeImage} (hs : s.unmerge run m = .ok s') :
    (s.swept w ops horizon).unmerge run m = .ok (s'.swept w ops horizon) := by
  obtain ⟨s₁, hmove, hs⟩ := bind_eq_ok.mp hs
  cases hs
  unfold unmerge
  dsimp only
  rw [swept_updateNodes, swept_moveLinksBack hmove]
  change Except.ok ((reparentBack m.children (s₁.swept w ops horizon)).unretire run _) = _
  rw [swept_reparentBack, swept_unretire]

theorem swept_restorePromptBody (prompt : ℤ) : (s.swept w ops horizon).restorePromptBody h prompt =
    (s.restorePromptBody h prompt).map fun r => (r.1.swept w ops horizon, r.2) := by
  have hforgotten : (s.swept w ops horizon).forgottenSources = s.forgottenSources := rfl
  have harchive : (s.swept w ops horizon).archive = s.archive := rfl
  have hprompts : (s.swept w ops horizon).prompts = s.prompts := rfl
  unfold restorePromptBody
  rw [hforgotten, harchive]
  by_cases hf : (s.forgottenSources.get? prompt).isSome = true
  · rw [if_pos hf, if_pos hf]
    rfl
  rw [if_neg hf, if_neg hf]
  cases s.archive.get? prompt with
  | none => rfl
  | some a =>
    dsimp only
    by_cases halgo : a.algo ≠ archiveAlgo
    · rw [if_pos halgo, if_pos halgo]
      rfl
    rw [if_neg halgo, if_neg halgo]
    cases h.inflate a.blob with
    | none => rfl
    | some body =>
      dsimp only
      rw [hprompts]
      split_ifs <;> rfl

/-- **An inverse that goes through goes through without the rows**, to the
same store without them. -/
theorem invertOp_swept {pre : Option Image} (hs : s.invertOp h now run byRun pre = .ok s') :
    (s.swept w ops horizon).invertOp h now run byRun pre = .ok (s'.swept w ops horizon) := by
  cases pre with
  | none => cases hs
  | some image =>
    cases image with
    | claim id =>
      cases hs
      unfold invertOp retireClaim
      dsimp only
      change Except.ok (if s.claimRetires id now = true then _ else _) = _
      split_ifs <;> rfl
    | file link node kind target revived =>
      cases revived with
      | none =>
        cases hs
        unfold invertOp swept
        dsimp only
        rw [IndexedTable.delete_delete]
      | some q =>
        cases hs
        exact congrArg Except.ok swept_updateLinks
    | create node parent title =>
      cases hs
      exact congrArg Except.ok (swept_retireMade node)
    | promote node oldParent newParent =>
      cases hs
      exact congrArg Except.ok swept_updateNodes
    | split node parent created =>
      have hs := mapError_eq_ok hs
      unfold invertOp
      dsimp only
      rw [swept_unsplit hs]
      rfl
    | merge m =>
      have hs := mapError_eq_ok hs
      unfold invertOp
      dsimp only
      rw [swept_unmerge hs]
      rfl
    | collapse node digest set citations =>
      cases hs
      unfold invertOp
      dsimp only
      rw [swept_retireMade, swept_updateLinks, swept_unretire]
    | supersede oldSeq newSeq eventSeq =>
      cases hs
      rfl
    | compact prompt seq =>
      unfold invertOp at hs ⊢
      dsimp only at hs ⊢
      rw [swept_restorePromptBody]
      split at hs
      · cases hs
      · rename_i s₁ hr
        cases hs
        rw [hr]
        rfl
      · cases hs
    | observe id node seq =>
      cases hs
      exact congrArg Except.ok swept_updateObservations

/-! ### Refusals -/

theorem mapError_eq_error {ε ε' α : Type} {f : ε → ε'} {x : Except ε α} {e : ε'}
    (hx : x.mapError f = .error e) : ∃ d, x = .error d ∧ f d = e := by
  cases x with
  | error d =>
    cases hx
    exact ⟨d, rfl, rfl⟩
  | ok a => cases hx

theorem moveLinksBack_error : ∀ {moves : List (ℤ × String)} {s : Store} {e : DbError},
    moveLinksBack moves s = .error e → e = .constraint
  | (l, node) :: moves, s, e, hs => by
    rw [moveLinksBack] at hs
    split at hs
    · cases hs
      rfl
    · exact moveLinksBack_error hs

theorem movePartBack_error {node part : String} : ∀ {ls : List ℤ} {s : Store} {e : DbError},
    movePartBack node part ls s = .error e → e = .constraint
  | l :: ls, s, e, hs => by
    rw [movePartBack] at hs
    split at hs
    · split at hs
      · cases hs
        rfl
      · exact movePartBack_error hs
    · exact movePartBack_error hs

theorem unsplit_error {node : String} : ∀ {created : List CreatedPart} {s : Store} {e : DbError},
    unsplit byRun node created s = .error e → e = .constraint
  | c :: created, s, e, hs => by
    rw [unsplit] at hs
    cases hmove : movePartBack node c.id c.linkIds s with
    | error e' =>
      rw [hmove] at hs
      cases hs
      exact movePartBack_error hmove
    | ok s₁ =>
      rw [hmove] at hs
      exact unsplit_error hs

theorem unmerge_error {m : MergeImage} {e : DbError} (hs : s.unmerge run m = .error e) :
    e = .constraint := by
  unfold unmerge at hs
  dsimp only at hs
  cases hmove : moveLinksBack m.movedLinks { s with
      nodes := s.nodes.update (fun n => n.id = m.target) fun n =>
        { n with title := m.oldTitle, parentId := m.oldParent } } with
  | error e' =>
    rw [hmove] at hs
    cases hs
    exact moveLinksBack_error hmove
  | ok s₁ =>
    rw [hmove] at hs
    cases hs

/-- An inverse that is refused with the rows and without them is refused for
one reason. -/
theorem invertOp_refused {pre : Option Image} {e e' : String}
    (hs : s.invertOp h now run byRun pre = .error e)
    (hv : (s.swept w ops horizon).invertOp h now run byRun pre = .error e') : e = e' := by
  cases pre with
  | none =>
    cases hs
    cases hv
    rfl
  | some image =>
    cases image with
    | claim id => cases hs
    | file link node kind target revived => cases revived <;> cases hs
    | create node parent title => cases hs
    | promote node oldParent newParent => cases hs
    | split node parent created =>
      obtain ⟨d, hd, rfl⟩ := mapError_eq_error hs
      obtain ⟨d', hd', rfl⟩ := mapError_eq_error hv
      rw [unsplit_error hd, unsplit_error hd']
    | merge m =>
      obtain ⟨d, hd, rfl⟩ := mapError_eq_error hs
      obtain ⟨d', hd', rfl⟩ := mapError_eq_error hv
      rw [unmerge_error hd, unmerge_error hd']
    | collapse node digest set citations => cases hs
    | supersede oldSeq newSeq eventSeq => cases hs
    | compact prompt seq =>
      unfold invertOp at hs hv
      dsimp only at hs hv
      rw [swept_restorePromptBody] at hv
      rcases hr : s.restorePromptBody h prompt with d | ⟨s₁, _ | _⟩
      · rw [hr] at hs hv
        cases hs
        cases hv
        rfl
      · rw [hr] at hs hv
        cases hs
        cases hv
        rfl
      · rw [hr] at hs
        cases hs
    | observe id node seq => cases hs

/-! ### What stays out of sight -/

/-- The swept nodes and observations are retired, and not by the run. -/
structure Gone (w : Sweep) (run : ℤ) (s : Store) : Prop where
  nodes : ∀ {id a}, w.nodes id = true → s.nodes.get? id = some a →
    a.live = false ∧ a.retiredByRun ≠ some run
  observations : ∀ {id a}, w.observations id = true → s.observations.get? id = some a →
    a.live = false ∧ a.retiredByRun ≠ some run

theorem Gone.congr (hs : s.Gone w run) (hnodes : s'.nodes = s.nodes)
    (hobs : s'.observations = s.observations) : s'.Gone w run := by
  constructor
  · rw [hnodes]
    exact hs.nodes
  · rw [hobs]
    exact hs.observations

theorem Gone.updateNodes {p : NodeRow → Bool} {f : NodeRow → NodeRow} {hf : ∀ r, (f r).id = r.id}
    (hs : s.Gone w run) (hkeep : ∀ a, a.live = false → a.retiredByRun ≠ some run → p a = true →
      (f a).retiredByRun = a.retiredByRun) :
    ({ s with nodes := s.nodes.update p f hf } : Store).Gone w run := by
  refine ⟨fun {id b} hw hb => ?_, hs.observations⟩
  rw [Table.get?_update] at hb
  obtain ⟨a, ha, rfl⟩ := Option.map_eq_some_iff.mp hb
  obtain ⟨hl, hm⟩ := hs.nodes hw ha
  split_ifs with hp
  · rw [NodeRow.live, hkeep a hl hm hp]
    exact ⟨hl, hm⟩
  · exact ⟨hl, hm⟩

theorem Gone.updateObservations {p : ObservationRow → Bool} {f : ObservationRow → ObservationRow}
    {hf : ∀ r, (f r).id = r.id} (hs : s.Gone w run)
    (hkeep : ∀ a, a.live = false → a.retiredByRun ≠ some run → p a = true →
      (f a).retiredByRun = a.retiredByRun) :
    ({ s with observations := s.observations.update p f hf } : Store).Gone w run := by
  refine ⟨hs.nodes, fun {id b} hw hb => ?_⟩
  rw [AutoTable.toTable_update, Table.get?_update] at hb
  obtain ⟨a, ha, rfl⟩ := Option.map_eq_some_iff.mp hb
  obtain ⟨hl, hm⟩ := hs.observations hw ha
  split_ifs with hp
  · rw [ObservationRow.live, hkeep a hl hm hp]
    exact ⟨hl, hm⟩
  · exact ⟨hl, hm⟩

theorem Gone.retireMade (hs : s.Gone w run) (byRun : ℤ) (id : String) :
    (s.retireMade byRun id).Gone w run := by
  refine hs.updateNodes fun a hl _ hp => ?_
  simp [hl] at hp

theorem Gone.unretire (hs : s.Gone w run) (set : RetiredSet) : (s.unretire run set).Gone w run := by
  have hnodes : Gone w run { s with
      nodes := s.nodes.update (fun n => n.id ∈ set.nodes && n.retiredByRun = some run) fun n =>
        { n with retiredByRun := none, retiredInto := none } } :=
    hs.updateNodes fun a _ hm hp => by simp [hm] at hp
  have hobs : Gone w run { s with
      nodes := s.nodes.update (fun n => n.id ∈ set.nodes && n.retiredByRun = some run) fun n =>
        { n with retiredByRun := none, retiredInto := none }
      observations := s.observations.update
        (fun o => o.id ∈ set.observations && o.retiredByRun = some run) fun o =>
        { o with retiredByRun := none } } :=
    hnodes.updateObservations fun a _ hm hp => by simp [hm] at hp
  exact hobs.congr rfl rfl

theorem Gone.reparentBack : ∀ {cs : List (String × String)} {s : Store}, s.Gone w run →
    (Store.reparentBack cs s).Gone w run
  | [], _, hs => hs
  | (child, parent) :: cs, s, hs => by
    rw [Store.reparentBack]
    exact Gone.reparentBack (hs.updateNodes fun _ _ _ _ => rfl)

theorem Gone.unsplit {node : String} : ∀ {created : List CreatedPart} {s s' : Store},
    s.Gone w run → unsplit byRun node created s = .ok s' → s'.Gone w run
  | [], s, s', hs, hu => by
    cases hu
    exact hs
  | c :: created, s, s', hs, hu => by
    rw [Store.unsplit] at hu
    obtain ⟨s₁, hmove, hu⟩ := bind_eq_ok.mp hu
    have hback := movePartBack_rows hmove
    exact Gone.unsplit ((hs.congr hback.nodes hback.observations).retireMade byRun c.id) hu

/-- **No inverse brings a swept node or observation back.** -/
theorem Gone.invertOp {pre : Option Image} (hs : s.Gone w run)
    (hi : s.invertOp h now run byRun pre = .ok s') : s'.Gone w run := by
  cases pre with
  | none => cases hi
  | some image =>
    cases image with
    | claim id =>
      cases hi
      unfold retireClaim
      dsimp only
      split_ifs <;> exact hs.congr rfl rfl
    | file link node kind target revived =>
      cases revived <;> cases hi <;> exact hs.congr rfl rfl
    | create node parent title =>
      cases hi
      exact hs.retireMade byRun node
    | promote node oldParent newParent =>
      cases hi
      exact hs.updateNodes fun _ _ _ _ => rfl
    | split node parent created => exact hs.unsplit (mapError_eq_ok hi)
    | merge m =>
      obtain ⟨s₁, hmove, hi⟩ := bind_eq_ok.mp (mapError_eq_ok hi)
      cases hi
      have hback := moveLinksBack_rows hmove
      have hstart : Gone w run { s with nodes := s.nodes.update (fun n => n.id = m.target) fun n =>
          { n with title := m.oldTitle, parentId := m.oldParent } } := hs.updateNodes fun _ _ _ _ => rfl
      exact (Gone.reparentBack (hstart.congr hback.nodes hback.observations)).unretire _
    | collapse node digest set citations =>
      cases hi
      have hretired : (s.withoutDigest byRun digest citations).Gone w run :=
        (hs.retireMade byRun digest).congr rfl rfl
      exact hretired.unretire set
    | supersede oldSeq newSeq eventSeq =>
      cases hi
      exact hs.congr rfl rfl
    | compact prompt seq =>
      unfold Store.invertOp at hi
      dsimp only at hi
      split at hi
      · cases hi
      · rename_i s₁ hr
        cases hi
        have hsame := sameCatalog_restorePromptBody hr
        exact hs.congr hsame.nodes hsame.observations
      · cases hi
    | observe id node seq =>
      cases hi
      refine hs.updateObservations fun a hl _ hp => ?_
      simp [hl] at hp

end

end Store

/-! ### The marks of the links -/

/-- The mark of a link once an op with this image is undone; none if there is
no such link. -/
def Image.markBack (run byRun l : ℤ) : Image → Option (Option ℤ) → Option (Option ℤ)
  | .file link _ _ _ revived, m =>
    if l = link then
      match revived with
      | some q => m.map fun _ => some q
      | none => none
    else m
  | .merge im, m => m.map fun x => if l ∈ im.leftoverLinks ∧ x = some run then none else x
  | .collapse _ _ set citations, m =>
    (m.map fun x => if l ∈ citations ∧ x = none then some byRun else x).map fun x =>
      if l ∈ set.links ∧ x = some run then none else x
  | _, m => m

namespace Store

section

variable {h : Host} {s s' : Store} {now run byRun : ℤ}

/-- A link's mark, if there is such a link. -/
def linkMark (s : Store) (l : ℤ) : Option (Option ℤ) := (s.links.get? l).map LinkRow.retiredByRun

theorem linkMark_reindex {links : IndexedTable LinkRow.id LinkRow.dedup} {l : ℤ} {node : String}
    (hre : s.links.reindex? l (fun r => { r with nodeId := node }) = some links) (k : ℤ) :
    ({ s with links := links } : Store).linkMark k = s.linkMark k := by
  unfold linkMark
  rw [IndexedTable.get?_reindex? hre, Option.map_map]
  congr 1
  funext r
  rw [Function.comp_apply]
  split_ifs <;> rfl

theorem linkMark_moveLinksBack (k : ℤ) : ∀ {moves : List (ℤ × String)} {s s' : Store},
    moveLinksBack moves s = .ok s' → s'.linkMark k = s.linkMark k
  | [], s, s', hs => by
    cases hs
    rfl
  | (l, node) :: moves, s, s', hs => by
    rw [moveLinksBack] at hs
    split at hs
    · cases hs
    rename_i links hre
    exact (linkMark_moveLinksBack k hs).trans (linkMark_reindex hre k)

theorem linkMark_movePartBack {node part : String} (k : ℤ) : ∀ {ls : List ℤ} {s s' : Store},
    movePartBack node part ls s = .ok s' → s'.linkMark k = s.linkMark k
  | [], s, s', hs => by
    cases hs
    rfl
  | l :: ls, s, s', hs => by
    rw [movePartBack] at hs
    split at hs
    · split at hs
      · cases hs
      rename_i links hre
      exact (linkMark_movePartBack k hs).trans (linkMark_reindex hre k)
    · exact linkMark_movePartBack k hs

theorem linkMark_unsplit {node : String} (k : ℤ) : ∀ {created : List CreatedPart} {s s' : Store},
    unsplit byRun node created s = .ok s' → s'.linkMark k = s.linkMark k
  | [], s, s', hs => by
    cases hs
    rfl
  | c :: created, s, s', hs => by
    rw [unsplit] at hs
    obtain ⟨s₁, hmove, hs⟩ := bind_eq_ok.mp hs
    have hpart : s₁.linkMark k = s.linkMark k := linkMark_movePartBack k hmove
    exact (linkMark_unsplit k hs).trans hpart

theorem linkMark_updateLinks {p : LinkRow → Bool} {f : LinkRow → LinkRow} {hf : ∀ r, (f r).id = r.id}
    {hi : ∀ r, (f r).dedup = r.dedup} (k : ℤ) {g : Option ℤ → Option ℤ}
    (hg : ∀ r, r.id = k → (if p r then f r else r).retiredByRun = g r.retiredByRun) :
    ({ s with links := s.links.update p f hf hi } : Store).linkMark k = (s.linkMark k).map g := by
  unfold linkMark
  rw [IndexedTable.toAutoTable_update, AutoTable.toTable_update, Table.get?_update, Option.map_map,
    Option.map_map]
  cases hr : s.links.get? k with
  | none => rfl
  | some r => exact congrArg some (hg r (Table.key_of_get? hr))

theorem linkMark_unretire (k : ℤ) (set : RetiredSet) : (s.unretire run set).linkMark k =
    (s.linkMark k).map fun x => if k ∈ set.links ∧ x = some run then none else x := by
  unfold linkMark
  rw [get?_unretire_links, Option.map_map, Option.map_map]
  congr 1
  funext r
  simp only [Function.comp_apply]
  split_ifs <;> rfl

/-- **What an inverse does to the mark of a link** is told by the image. -/
theorem linkMark_invertOp {image : Image} (hi : s.invertOp h now run byRun (some image) = .ok s')
    (l : ℤ) : s'.linkMark l = image.markBack run byRun l (s.linkMark l) := by
  cases image with
  | claim id =>
    cases hi
    unfold retireClaim
    dsimp only
    split_ifs <;> rfl
  | file link node kind target revived =>
    unfold Image.markBack
    cases revived with
    | none =>
      cases hi
      unfold linkMark
      dsimp only
      rw [IndexedTable.toAutoTable_delete, AutoTable.toTable_delete, Table.get?_delete]
      cases hr : s.links.get? l with
      | none => simp
      | some r => by_cases hl : l = link <;> simp [Table.key_of_get? hr, hl]
    | some q =>
      cases hi
      rw [linkMark_updateLinks l (g := fun x => if l = link then some q else x)]
      · by_cases hl : l = link
        · simp only [hl, if_true]
        · simp only [hl, if_false, Option.map_id']
      · intro r hr
        simp only [hr, decide_eq_true_eq]
        split_ifs <;> rfl
  | create node parent title =>
    cases hi
    rfl
  | promote node oldParent newParent =>
    cases hi
    rfl
  | split node parent created => exact linkMark_unsplit l (mapError_eq_ok hi)
  | merge m =>
    obtain ⟨s₁, hmove, hi⟩ := bind_eq_ok.mp (mapError_eq_ok hi)
    cases hi
    rw [linkMark_unretire]
    have hlinks : (reparentBack m.children s₁).linkMark l = s₁.linkMark l := by
      rw [linkMark, (reparentBack_rows m.children s₁).1]
      rfl
    rw [hlinks, linkMark_moveLinksBack l hmove]
    rfl
  | collapse node digest set citations =>
    cases hi
    rw [linkMark_unretire, linkMark_updateLinks l
      (g := fun x => if l ∈ citations ∧ x = none then some byRun else x)]
    · rfl
    · intro r hr
      cases hm : r.retiredByRun with
      | none => by_cases hc : l ∈ citations <;> simp [hr, hc, hm, LinkRow.live]
      | some q => simp [hm, LinkRow.live]
  | supersede oldSeq newSeq eventSeq =>
    cases hi
    rfl
  | compact prompt seq =>
    unfold invertOp at hi
    dsimp only at hi
    split at hi
    · cases hi
    · rename_i s₁ hr
      cases hi
      unfold linkMark
      rw [(sameCatalog_restorePromptBody hr).links]
      rfl
    · cases hi
  | observe id node seq =>
    cases hi
    rfl

end

/-! ### Two undos -/

/-- The rows that are in sight are the same. -/
structure SameLive (s t : Store) : Prop where
  nodes : ∀ id, (t.nodes.get? id).filter NodeRow.live = (s.nodes.get? id).filter NodeRow.live
  links : ∀ id, (t.links.get? id).filter LinkRow.live = (s.links.get? id).filter LinkRow.live
  observations : ∀ id, (t.observations.get? id).filter ObservationRow.live =
    (s.observations.get? id).filter ObservationRow.live

/-- One outcome: the same refusal, or the same rows in sight. -/
def UndoesAlike : Except String Store → Except String Store → Prop
  | .ok s, .ok t => SameLive s t
  | .error e, .error e' => e = e'
  | _, _ => False

/-- What an undo does without the rows it does with them. `marks` are the marks
of the links, as the images tell them. -/
def undoApart (h : Host) (now run byRun : ℤ) (w : Sweep) :
    List OpRow → (ℤ → Option (Option ℤ)) → Store → Prop
  | [], marks, _ => ∀ l, w.links l = true → marks l ≠ some none
  | o :: ops, marks, s =>
    let pre := (s.runOps.get? o.key).bind OpRow.preImage
    match s.invertOp h now run byRun pre with
    | .error _ =>
      ((s.swept w s.runOps s.revertHorizon).invertOp h now run byRun pre).toOption = none
    | .ok s' => undoApart h now run byRun w ops
        (fun l => pre.elim (marks l) fun image => image.markBack run byRun l (marks l))
        (s'.markReverted o byRun)

section

variable {h : Host} {w : Sweep} {ops : Table OpRow.key} {horizon : Option ℤ} {s s' : Store}
  {now run byRun : ℤ}

theorem filter_swept {κ ρ : Type} [DecidableEq κ] {key : ρ → κ} {t : Table key} {gone : κ → Bool}
    {live : ρ → Bool} : (∀ k, ((t.delete fun r => gone (key r)).get? k).filter live =
      (t.get? k).filter live) ↔ ∀ k r, gone k = true → t.get? k = some r → live r = false := by
  refine forall_congr' fun k => ?_
  rw [Table.get?_delete]
  cases hr : t.get? k with
  | none => simp
  | some r =>
    cases hg : gone k <;> cases hl : live r <;>
      simp [Option.filter, Table.key_of_get? hr, hg, hl]

/-- Without the rows the same is in sight if none of them was. -/
theorem sameLive_swept (hs : s.Gone w run) : SameLive s (s.swept w ops horizon) ↔
    ∀ l, w.links l = true → s.linkMark l ≠ some none := by
  have hlinks := @filter_swept ℤ LinkRow _ LinkRow.id s.links.toTable w.links LinkRow.live
  have hmark : (∀ l, w.links l = true → s.linkMark l ≠ some none) ↔
      ∀ l r, w.links l = true → s.links.get? l = some r → r.live = false := by
    refine forall_congr' fun l => ?_
    unfold linkMark
    cases hr : s.links.get? l with
    | none => simp
    | some r => cases hm : r.retiredByRun <;> simp [LinkRow.live, hm]
  rw [hmark, ← hlinks]
  constructor
  · exact fun hlive => hlive.links
  · intro hl
    refine ⟨?_, hl, ?_⟩
    · exact filter_swept.mpr fun id a hw ha => (hs.nodes hw ha).1
    · exact filter_swept.mpr fun id a hw ha => (hs.observations hw ha).1

/-- The journal and the horizon do not decide whether an inverse is refused. -/
theorem invertOp_swept_toOption {pre : Option Image} {ops' : Table OpRow.key} {horizon' : Option ℤ}
    (hs : ((s.swept w ops horizon).invertOp h now run byRun pre).toOption = none) :
    ((s.swept w ops' horizon').invertOp h now run byRun pre).toOption = none := by
  have hnone : ∀ t : Store, t.swept ⟨fun _ => false, fun _ => false, fun _ => false⟩ ops horizon =
      { t with runOps := ops, revertHorizon := horizon } := by
    intro t
    have hnodes : (t.nodes.delete fun _ => false) = t.nodes :=
      Table.ext (List.filter_eq_self.mpr fun _ _ => rfl)
    have hlinks : (t.links.delete fun _ => false) = t.links :=
      IndexedTable.ext (AutoTable.ext (Table.ext (List.filter_eq_self.mpr fun _ _ => rfl)) rfl)
    have hobs : (t.observations.delete fun _ => false) = t.observations :=
      AutoTable.ext (Table.ext (List.filter_eq_self.mpr fun _ _ => rfl)) rfl
    unfold swept
    rw [hnodes, hlinks, hobs]
  cases hi : (s.swept w ops' horizon').invertOp h now run byRun pre with
  | error e => rfl
  | ok t =>
    have hback := @invertOp_swept h ⟨fun _ => false, fun _ => false, fun _ => false⟩ ops horizon _ t
      now run byRun pre hi
    rw [hnone] at hback
    change (s.swept w ops horizon).invertOp h now run byRun pre = _ at hback
    rw [hback] at hs
    cases hs

theorem eq_of_append_space : ∀ {x y a b : List Char}, ' ' ∉ x → ' ' ∉ y →
    x ++ ' ' :: a = y ++ ' ' :: b → x = y
  | [], [], _, _, _, _, _ => rfl
  | [], c :: y, _, _, _, hy, hxy => by
    cases hxy
    exact absurd List.mem_cons_self hy
  | c :: x, [], _, _, hx, _, hxy => by
    cases hxy
    exact absurd List.mem_cons_self hx
  | c :: x, d :: y, a, b, hx, hy, hxy => by
    have hhead : c = d := (List.cons.inj hxy).1
    have htail : x ++ ' ' :: a = y ++ ' ' :: b := (List.cons.inj hxy).2
    rw [hhead, eq_of_append_space (fun hm => hx (List.mem_cons_of_mem c hm))
      (fun hm => hy (List.mem_cons_of_mem d hm)) htail]

/-- The number of the op is read back from the text of its refusal. -/
theorem refusal_opIx {o p : OpRow} {reason other : String}
    (heq : s!"op {o.opIx} ({o.op.name}) of run #{run}: {reason}" =
      s!"op {p.opIx} ({p.op.name}) of run #{run}: {other}") : o.opIx = p.opIx := by
  have hnot : ∀ n : ℤ, ' ' ∉ (toString n).toList := by
    intro n hm
    have ht : JsonText.intText n = (toString n).toList := by
      cases n <;> simp [JsonText.intText, toString, Int.repr, Nat.repr]
    rw [← ht] at hm
    rcases JsonText.intText_mem hm with h | h <;> exact absurd h (by decide)
  apply toString_injective
  apply String.toList_injective
  have hlist := congrArg String.toList heq
  simp only [String.toList_append, toString, List.append_assoc] at hlist
  exact eq_of_append_space (hnot _) (hnot _) (by simpa using hlist)

theorem swept_markReverted (o : OpRow) : (s.swept w ops horizon).markReverted o byRun =
    (s.markReverted o byRun).swept w (ops.update (fun r => r.key = o.key) fun r =>
      { r with outcome := .reverted, revertedByRun := some byRun }) horizon := rfl

/-- An op keeps its image when it is marked. -/
theorem preImage_reverted {o : OpRow} {k : ℤ × ℤ} :
    ((ops.update (fun r => r.key = o.key) fun r =>
      { r with outcome := .reverted, revertedByRun := some byRun }).get? k).bind OpRow.preImage =
      (ops.get? k).bind OpRow.preImage := by
  rw [Table.get?_update]
  cases ops.get? k with
  | none => rfl
  | some r =>
    rw [Option.map_some, Option.bind_some, Option.bind_some]
    split_ifs <;> rfl

theorem undoOps_swept : ∀ {l : List OpRow} {s s' : Store} {ops : Table OpRow.key},
    (∀ o ∈ l, (ops.get? o.key).bind OpRow.preImage = (s.runOps.get? o.key).bind OpRow.preImage) →
    undoOps h now run byRun l s = .ok s' →
      ∃ ops', undoOps h now run byRun l (s.swept w ops horizon) = .ok (s'.swept w ops' horizon)
  | [], s, s', ops, _, hs => by
    cases hs
    exact ⟨ops, rfl⟩
  | o :: l, s, s', ops, hops, hs => by
    have hpre : (((s.swept w ops horizon).runOps).get? o.key).bind OpRow.preImage =
        (s.runOps.get? o.key).bind OpRow.preImage := hops o List.mem_cons_self
    rw [undoOps] at hs
    split at hs
    · cases hs
    rename_i s₁ hi
    rw [undoOps, hpre, invertOp_swept hi]
    dsimp only
    rw [swept_markReverted]
    refine undoOps_swept (fun o' ho' => ?_) hs
    rw [preImage_reverted, hops o' (List.mem_cons_of_mem o ho'), ← (sameBooks_invertOp hi).runOps]
    exact preImage_reverted.symm

theorem undoOps_error : ∀ {l : List OpRow} {s : Store} {e : String},
    undoOps h now run byRun l s = .error e → ∃ o ∈ l, ∃ reason : String,
      e = s!"op {o.opIx} ({o.op.name}) of run #{run}: {reason}"
  | o :: l, s, e, hs => by
    rw [undoOps] at hs
    split at hs
    · rename_i reason hi
      cases hs
      exact ⟨o, List.mem_cons_self, reason, rfl⟩
    · obtain ⟨o', ho', hreason⟩ := undoOps_error hs
      exact ⟨o', List.mem_cons_of_mem o ho', hreason⟩

/-- **The two undos end alike just where** no refusal is the doing of the
missing rows and none of them would have come back. -/
theorem undoOps_alike_iff : ∀ {l : List OpRow} {s : Store} {ops : Table OpRow.key}
    {marks : ℤ → Option (Option ℤ)}, (l.map OpRow.opIx).Nodup → s.Gone w run →
    (∀ k, marks k = s.linkMark k) →
    (∀ o ∈ l, (ops.get? o.key).bind OpRow.preImage = (s.runOps.get? o.key).bind OpRow.preImage) →
    (UndoesAlike (undoOps h now run byRun l s) (undoOps h now run byRun l (s.swept w ops horizon)) ↔
      undoApart h now run byRun w l marks s)
  | [], s, ops, marks, _, hs, hmarks, _ => by
    rw [undoApart]
    simp only [hmarks]
    exact sameLive_swept hs
  | o :: l, s, ops, marks, hnodup, hs, hmarks, hops => by
    have hpre : (((s.swept w ops horizon).runOps).get? o.key).bind OpRow.preImage =
        (s.runOps.get? o.key).bind OpRow.preImage := hops o List.mem_cons_self
    rw [undoOps, undoOps, hpre, undoApart]
    cases hi : s.invertOp h now run byRun ((s.runOps.get? o.key).bind OpRow.preImage) with
    | error e =>
      cases hv : (s.swept w ops horizon).invertOp h now run byRun
          ((s.runOps.get? o.key).bind OpRow.preImage) with
      | error e' =>
        have heq : e = e' := invertOp_refused hi hv
        subst heq
        have hrefused : ((s.swept w ops horizon).invertOp h now run byRun
            ((s.runOps.get? o.key).bind OpRow.preImage)).toOption = none := by rw [hv]; rfl
        exact iff_of_true rfl (invertOp_swept_toOption hrefused)
      | ok t =>
        refine iff_of_false (fun halike => ?_) fun hrefused => ?_
        · cases hu : undoOps h now run byRun l (t.markReverted o byRun) with
          | ok t' =>
            dsimp only at halike
            rw [hu] at halike
            exact halike
          | error e' =>
            dsimp only at halike
            rw [hu] at halike
            obtain ⟨o', ho', reason, rfl⟩ := undoOps_error hu
            have hix := refusal_opIx halike
            rw [List.map_cons, List.nodup_cons] at hnodup
            exact hnodup.1 (hix ▸ List.mem_map_of_mem ho')
        · have hnone : ((s.swept w ops horizon).invertOp h now run byRun
              ((s.runOps.get? o.key).bind OpRow.preImage)).toOption = none :=
            invertOp_swept_toOption hrefused
          rw [hv] at hnone
          cases hnone
    | ok s₁ =>
      rw [invertOp_swept hi]
      have hbooks := sameBooks_invertOp hi
      dsimp only
      rw [swept_markReverted]
      refine undoOps_alike_iff (List.nodup_cons.mp hnodup).2 ((hs.invertOp hi).congr rfl rfl) ?_ ?_
      · intro k
        cases hp : (s.runOps.get? o.key).bind OpRow.preImage with
        | none =>
          rw [hp] at hi
          cases hi
        | some image =>
          rw [hp] at hi
          rw [Option.elim_some, hmarks]
          exact (linkMark_invertOp hi k).symm
      · intro o' ho'
        rw [preImage_reverted, hops o' (List.mem_cons_of_mem o ho'), ← hbooks.runOps]
        exact preImage_reverted.symm

end

/-! ### The vacuum -/

/-- The rows the vacuum deletes. -/
def sweptBy (s : Store) (olderThanRuns : ℤ) : Sweep where
  nodes id := (s.nodes.get? id).isSome && ((s.vacuumRetired olderThanRuns).nodes.get? id).isNone
  links id := (s.links.get? id).isSome && ((s.vacuumRetired olderThanRuns).links.get? id).isNone
  observations id :=
    (s.observations.get? id).isSome && ((s.vacuumRetired olderThanRuns).observations.get? id).isNone

/-- The revert is the same before the vacuum and after it: the same receipt and
the same rows in sight, or the same refusal. -/
def RevertsAgree (h : Host) (s v : Store) (now run : ℤ) (actor : String) : Prop :=
  match s.revertRun h now run actor, v.revertRun h now run actor with
  | .ok (s', r), .ok (v', r') => r = r' ∧ SameLive s' v'
  | .error e, .error e' => e = e'
  | _, _ => False

/-- The revert does without the rows the vacuum deletes what it does with them. -/
def RevertApart (h : Host) (s : Store) (olderThanRuns now run : ℤ) : Prop :=
  s.revertRefusal run = none →
    undoApart h now run s.runs.nextId (s.sweptBy olderThanRuns) (s.appliedOps run).reverse s.linkMark
      (s.insertClassRunWith now .revert none none).1

/-- A vacuum does nothing, or it has a horizon. -/
theorem vacuumRetired_cases (s : Store) (n : ℤ) : s.vacuumRetired n = s ∨
    ∃ horizon, s.revertHorizon.getD 0 < horizon ∧ s.vacuumRetired n = { s with
      links := s.links.delete fun l => l.retiredByRun.any (· ≤ horizon)
      observations := s.observations.delete fun o => o.retiredByRun.any (· ≤ horizon)
      nodes := s.nodes.delete fun n => n.retiredByRun.any (· ≤ horizon)
      runOps := s.runOps.update (fun o => o.runId ≤ horizon) fun o =>
        { o with preImage := none, postImage := none }
      revertHorizon := some horizon } := by
  unfold vacuumRetired
  dsimp only
  split_ifs with hskip
  · exact .inl rfl
  · rw [not_or, not_le, not_le] at hskip
    exact .inr ⟨_, hskip.2, rfl⟩

theorem vacuumRetired_eq (s : Store) (n : ℤ) : s.vacuumRetired n =
    s.swept (s.sweptBy n) (s.vacuumRetired n).runOps (s.vacuumRetired n).revertHorizon := by
  have hnodes : (s.nodes.delete fun r => (s.sweptBy n).nodes r.id) = (s.vacuumRetired n).nodes := by
    unfold sweptBy
    rcases vacuumRetired_cases s n with h | ⟨horizon, -, h⟩ <;> rw [h]
    · exact Table.delete_missing_self
    · exact Table.delete_missing
  have hlinks : (s.links.delete fun r => (s.sweptBy n).links r.id) = (s.vacuumRetired n).links := by
    unfold sweptBy
    rcases vacuumRetired_cases s n with h | ⟨horizon, -, h⟩ <;> rw [h]
    · exact IndexedTable.ext (AutoTable.ext Table.delete_missing_self rfl)
    · exact IndexedTable.ext (AutoTable.ext Table.delete_missing rfl)
  have hobs : (s.observations.delete fun r => (s.sweptBy n).observations r.id) =
      (s.vacuumRetired n).observations := by
    unfold sweptBy
    rcases vacuumRetired_cases s n with h | ⟨horizon, -, h⟩ <;> rw [h]
    · exact AutoTable.ext Table.delete_missing_self rfl
    · exact AutoTable.ext Table.delete_missing rfl
  unfold swept
  rw [hnodes, hlinks, hobs]
  rcases vacuumRetired_cases s n with h | ⟨horizon, -, h⟩ <;> rw [h]

section

variable {h : Host} {s : Store} {n now run : ℤ}

/-- What the vacuum deletes was retired, and by an earlier run. -/
theorem gone_sweptBy (habove : ∀ horizon ∈ (s.vacuumRetired n).revertHorizon, horizon < run) :
    s.Gone (s.sweptBy n) run := by
  rcases vacuumRetired_cases s n with hv | ⟨horizon, -, hv⟩
  · constructor <;> intro id a hw ha <;> simp [sweptBy, hv, ha] at hw
  · have hlt : horizon < run := habove horizon (by rw [hv]; rfl)
    have hpast : ∀ m : Option ℤ, m.any (· ≤ horizon) = true → m.isNone = false ∧ m ≠ some run := by
      rintro (_ | q) hq
      · cases hq
      · have hle : q ≤ horizon := by simpa using hq
        exact ⟨rfl, fun heq => absurd (Option.some.inj heq) (by omega)⟩
    constructor <;> intro id a hw ha <;> refine hpast _ ?_ <;>
      simpa [sweptBy, hv, ha, Option.filter, apply_ite Option.isNone] using hw

/-- The journal of the run and of later runs stays as it is. -/
theorem select_vacuumRetired (habove : ∀ horizon ∈ (s.vacuumRetired n).revertHorizon, horizon < run)
    {q : OpRow → Bool} (hq : ∀ o : OpRow, o.runId < run → q o = false) :
    (s.vacuumRetired n).runOps.select q = s.runOps.select q := by
  rcases vacuumRetired_cases s n with hv | ⟨horizon, -, hv⟩
  · rw [hv]
  · have hlt : horizon < run := habove horizon (by rw [hv]; rfl)
    rw [hv]
    refine @Table.select_update _ _ OpRow.key s.runOps (fun o => o.runId ≤ horizon) q
      (fun o => { o with preImage := none, postImage := none }) (fun _ => rfl) fun o ho => ?_
    have hrun : o.runId < run := lt_of_le_of_lt (of_decide_eq_true ho) hlt
    exact ⟨hq o hrun, hq _ hrun⟩

theorem appliedOps_vacuumRetired
    (habove : ∀ horizon ∈ (s.vacuumRetired n).revertHorizon, horizon < run) :
    (s.vacuumRetired n).appliedOps run = s.appliedOps run := by
  unfold appliedOps listRunOps
  rw [select_vacuumRetired habove]
  intro o ho
  rw [decide_eq_false_iff_not]
  exact ho.ne

theorem revertRefusal_vacuumRetired
    (habove : ∀ horizon ∈ (s.vacuumRetired n).revertHorizon, horizon < run) :
    (s.vacuumRetired n).revertRefusal run = s.revertRefusal run := by
  have hlater : (s.vacuumRetired n).laterRunTouching run = s.laterRunTouching run := by
    unfold laterRunTouching
    rw [appliedOps_vacuumRetired habove, select_vacuumRetired habove]
    intro o ho
    rw [Bool.and_eq_false_iff, decide_eq_false_iff_not]
    exact .inl ho.asymm
  have hruns : (s.vacuumRetired n).runs = s.runs := by
    rcases vacuumRetired_cases s n with hv | ⟨horizon, -, hv⟩ <;> rw [hv]
  have hopen : ∀ m : Option ℤ, (∀ horizon ∈ m, horizon < run) → m.any (run ≤ ·) = false := by
    rintro (_ | q) hq
    · rfl
    · simpa using hq q rfl
  have hbefore : ∀ horizon ∈ s.revertHorizon, horizon < run := by
    rcases vacuumRetired_cases s n with hv | ⟨horizon, hprior, hv⟩
    · rwa [hv] at habove
    · intro q hq
      have hlt : horizon < run := habove horizon (by rw [hv]; rfl)
      rw [Option.mem_def.mp hq] at hprior
      exact lt_trans hprior hlt
  unfold revertRefusal
  rw [hruns, hlater, appliedOps_vacuumRetired habove, hopen _ habove, hopen _ hbefore]
  cases s.runs.get? run with
  | none => rfl
  | some r => simp

theorem nodup_opIx (s : Store) (run : ℤ) : ((s.appliedOps run).reverse.map OpRow.opIx).Nodup := by
  have hrows : (s.runOps.select fun o => o.runId = run).Nodup := s.runOps.nodup.of_map.filter _
  have hops : (s.appliedOps run).Nodup :=
    ((List.perm_insertionSort _ _).nodup_iff.mpr hrows).filter _
  rw [List.map_reverse, List.nodup_reverse]
  refine List.Nodup.map_on (fun o ho o' ho' hix => ?_) hops
  obtain ⟨hr, hrun, -⟩ := mem_appliedOps.mp ho
  obtain ⟨hr', hrun', -⟩ := mem_appliedOps.mp ho'
  refine List.inj_on_of_nodup_map s.runOps.nodup hr hr' ?_
  rw [OpRow.key, OpRow.key, hrun, hrun', hix]

theorem preImage_vacuumRetired
    (habove : ∀ horizon ∈ (s.vacuumRetired n).revertHorizon, horizon < run) {o : OpRow}
    (ho : o ∈ s.appliedOps run) : ((s.vacuumRetired n).runOps.get? o.key).bind OpRow.preImage =
      (s.runOps.get? o.key).bind OpRow.preImage := by
  obtain ⟨hr, hrun, -⟩ := mem_appliedOps.mp ho
  rcases vacuumRetired_cases s n with hv | ⟨horizon, -, hv⟩
  · rw [hv]
  · have hlt : horizon < run := habove horizon (by rw [hv]; rfl)
    rw [hv]
    dsimp only
    rw [Table.get?_update, Table.mem_rows.mp hr, Option.map_some, if_neg]
    rw [decide_eq_true_eq]
    omega

theorem revertRun_permitted {actor : String} (hr : s.revertRefusal run = none) :
    s.revertRun h now run actor =
      match undoOps h now run s.runs.nextId (s.appliedOps run).reverse
        (s.insertClassRunWith now .revert none none).1 with
      | .error reason => .error reason
      | .ok t => .ok ((t.append h (revertEvent h now run s.runs.nextId
            (s.appliedOps run).reverse.length actor)).settleRevert run s.runs.nextId
              (s.appliedOps run).reverse.length,
          ⟨run, (s.appliedOps run).reverse.length, (t.appendedRow h (revertEvent h now run
            s.runs.nextId (s.appliedOps run).reverse.length actor)).seq, s.runs.nextId⟩) := by
  rw [revertRun, hr]
  rfl

/-- A revert that goes through, with no link to delete. -/
theorem undoApart_of_noLinks {byRun : ℤ} {w : Sweep} (hw : ∀ l, w.links l = false) :
    ∀ {l : List OpRow} {marks : ℤ → Option (Option ℤ)} {s t : Store},
      undoOps h now run byRun l s = .ok t → undoApart h now run byRun w l marks s
  | [], _, _, _, _ => fun k hk => by
    rw [hw k] at hk
    cases hk
  | o :: l, marks, s, t, hu => by
    rw [undoOps] at hu
    rw [undoApart]
    cases hi : s.invertOp h now run byRun ((s.runOps.get? o.key).bind OpRow.preImage) with
    | error e =>
      rw [hi] at hu
      cases hu
    | ok s₁ =>
      rw [hi] at hu
      exact undoApart_of_noLinks hw hu

end

end Store

open Store

/-! ### A link in the way -/

/-- A class is created and taken back, then another one is created. -/
def createdAgain : Store :=
  (past Host.plain [.start 1 .organize none none, .write 1 (.stage 2 (.create "r" "one" none)),
    .finish 1 ⟨.done, "", some 1, some .done, none, none⟩, .revert 3 1 "user",
    .start 4 .organize none none, .write 3 (.stage 5 (.create "r" "two" none)),
    .finish 3 ⟨.done, "", some 1, some .done, none, none⟩] fourClasses).store

/-- While a run is under way another one splits a class of its; then the first
files the item there again and merges the class into one that has it. -/
def splitWhileMerging : Store :=
  (past Host.plain [.start 1 .organize none none, .start 2 .curation none none,
    .write 2 (.stage 3 (.file "c" none "prompt" "7" none none)),
    .write 2 (.stage 3 (.split "c" [⟨"part", [1]⟩] none)), .write 2 (.apply 4 1 classifierActor),
    .finish 2 ⟨.done, "", some 2, some .done, none, none⟩,
    .write 1 (.stage 5 (.file "c" none "prompt" "7" none none)),
    .write 1 (.stage 5 (.file "t" none "prompt" "7" none none)),
    .write 1 (.stage 6 (.merge ["t", "c"] none none none)), .write 1 (.apply 7 2 classifierActor),
    .finish 1 ⟨.done, "", some 3, some .done, none, none⟩] fourClasses).store

end PolisMemory

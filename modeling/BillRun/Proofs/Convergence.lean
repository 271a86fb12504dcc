import BillRun.Proofs.Running

/-! A run brings the account to where its events say it should be, and stays there.

After a run the recurring items that survive are those that the events bill, key by key, whatever
was issued before (`run_converges`). Fixed items are never taken back, so of them the account keeps
the larger number. A second run for the same events, through no later target, then finds nothing to
do (`run_again`). -/
namespace BillRun

open Calendar Settlement

variable {o : Occasion} {events : List Event} {issued : List Invoice} {r : RunRequest}

namespace Ran

variable {timeline : Timeline} {target : Moment} {proposed new : List Item}

/-- What survives on the account after a run, key by key. -/
theorem count_surviving (h : Ran o events issued r timeline target proposed new)
    (hids : ((itemsOn issued).map Item.id).Nodup) (hfresh : Fresh (itemsOn issued) new)
    (key : ChargeKey) :
    (keys (surviving (itemsOn issued ++ new))).count key =
      if key.kind = .recurring then (keys proposed).count key
      else max ((keys proposed).count key) ((keys (surviving (itemsOn issued))).count key) := by
  obtain ⟨charges, taken, credited, rfl, hsettled, hcharges⟩ := h.settled
  exact hsettled.count_surviving hids hcharges hfresh key

/-- The recurring items that survive are the proposed ones. -/
theorem recurring_surviving_perm (h : Ran o events issued r timeline target proposed new)
    (hids : ((itemsOn issued).map Item.id).Nodup) (hfresh : Fresh (itemsOn issued) new) :
    (keys (recurring (surviving (itemsOn issued ++ new)))).Perm (keys (recurring proposed)) := by
  rw [List.perm_iff_count]
  intro key
  rw [count_keys_recurring, count_keys_recurring, h.count_surviving hids hfresh]
  split <;> rfl

/-! ### Anchored accounts stay anchored -/

theorem anchored_of_mem_proposed (h : Ran o events issued r timeline target proposed new)
    (hevents : ∀ e ∈ events, e.effective.Anchored) {i : Item} (hi : i ∈ proposed) :
    i.charge.Anchored := by
  obtain ⟨before, e, later, htimeline, hbills⟩ := h.bills hi
  have hperm := Timeline.perm_of_of h.ordered
  have hmem {f : Event} (hf : f ∈ e :: later) : f.effective.Anchored := by
    refine hevents f (hperm.subset ?_)
    rw [htimeline]
    exact List.mem_append_right before hf
  have he := hmem List.mem_cons_self
  refine ⟨hbills.aligned.anchored he, fun t ht => ?_⟩
  rcases hbills.stop t ht with haligned | hsuccessor
  · exact haligned.anchored he
  · obtain ⟨f, hf, rfl⟩ := Option.map_eq_some_iff.mp hsuccessor
    exact hmem (List.mem_cons_of_mem e (List.mem_of_find?_eq_some hf))

theorem anchored_of_mem_new (h : Ran o events issued r timeline target proposed new)
    (hevents : ∀ e ∈ events, e.effective.Anchored)
    (hissued : ∀ i ∈ itemsOn issued, i.charge.Anchored) {i : Item} (hi : i ∈ new) :
    i.charge.Anchored := by
  obtain ⟨charges, taken, credited, rfl, hsettled, -⟩ := h.settled
  rcases List.mem_append.mp hi with hi | hi
  · exact h.anchored_of_mem_proposed hevents (hsettled.charges_le.subset hi)
  · -- a credit keeps the start and the end of the item that it takes back
    obtain ⟨j, hj, hcredit⟩ := exists_of_mem_right hsettled.credited.flip hi
    have hold := hissued j (mem_surviving.mp (hsettled.taken_le.subset hj)).1
    rw [hcredit.rest]
    exact ⟨hold.start, hold.stop⟩

/-! ### The run after -/

/-- Once a run has billed, its target is the latest, whatever earlier target is asked for next. -/
theorem mark_of_latest (h : Ran o events issued r timeline target proposed new)
    {v : Invoice} (hv : v.target = target) {issued' : List Invoice}
    (hperm : issued'.Perm (v :: issued)) {earlier latest : Moment}
    (hle : earlier.instant ≤ target.instant) (hlatest : Latest earlier issued' latest) :
    latest.mark = target.mark := by
  have hmem {w : Invoice} : w ∈ issued' ↔ w = v ∨ w ∈ issued := by
    rw [hperm.mem_iff, List.mem_cons]
  obtain ⟨hcomparable, hge⟩ :=
    Moment.le_eq_true.mp (hlatest.issued_le v (hmem.mpr (.inl rfl)))
  rw [hv] at hcomparable hge
  have hle' : latest.instant ≤ target.instant := by
    rcases hlatest.chosen with rfl | ⟨-, w, hw, rfl⟩
    · exact hle
    · rcases hmem.mp hw with rfl | hw
      · exact Int.le_of_eq (congrArg Moment.instant hv)
      · exact (Moment.le_eq_true.mp (h.latest.issued_le w hw)).2
  exact Moment.mark_congr hcomparable.symm (Int.le_antisymm hle' hge)

/-- Everything proposed has been billed, and everything recurring on the account is proposed: the
same charges settle to nothing. -/
theorem settle_again (h : Ran o events issued r timeline target proposed new)
    (hids : ((itemsOn issued).map Item.id).Nodup) (hfresh : Fresh (itemsOn issued) new)
    {existing again : List Item} (hexisting : existing.Perm (itemsOn issued ++ new))
    (hagain : again.map (·.charge) = proposed.map (·.charge)) (ids : Nat → Uuid) (invoice : Uuid)
    (now : Moment) : settle again existing ids invoice now = .ok [] := by
  have hcount (key : ChargeKey) : (keys (surviving existing)).count key =
      if key.kind = .recurring then (keys again).count key
      else max ((keys again).count key) ((keys (surviving (itemsOn issued))).count key) := by
    rw [keys_congr hagain, ← h.count_surviving hids hfresh]
    exact ((surviving_perm hexisting).map Item.key).count_eq key
  apply settle_eq_nil
  · intro key
    rw [hcount]
    split
    · exact Nat.le_refl _
    · exact Nat.le_max_left ..
  · intro key hkey
    exact Nat.le_of_eq ((hcount key).trans (if_pos hkey))

/-- After an invoice the same events propose what was billed, so that nothing is left of it. -/
theorem run_eq_nothing {v : Invoice}
    (h : Ran o events issued r timeline v.target proposed v.items) (hne : events ≠ [])
    (hevents : ∀ e ∈ events, e.effective.Anchored)
    (htargets : ∀ w ∈ issued, w.target.Anchored)
    (hcharges : ∀ i ∈ itemsOn issued, i.charge.Anchored) (htarget : r.target.Anchored)
    (hids : ((itemsOn issued).map Item.id).Nodup) (hfresh : Fresh (itemsOn issued) v.items)
    {issued' : List Invoice} (hperm : issued'.Perm (v :: issued)) {earlier now : Moment}
    (hearlier : earlier.Anchored) (hle : earlier.instant ≤ v.target.instant)
    (hhorizon : o.terms.checkHorizon now earlier = .ok ()) (ids : Nat → Uuid) :
    ({ o with now, ids } : Occasion).run events issued' { r with target := earlier } =
      .ok none := by
  -- the second run bills through the same target, so it proposes the same charges
  have htargets' : ∀ w ∈ issued', w.target.Anchored := by
    intro w hw
    rcases List.mem_cons.mp (hperm.subset hw) with rfl | hw
    · exact h.anchored_target htarget htargets
    · exact htargets w hw
  obtain ⟨latest, hlatest⟩ := latestTarget_of_anchored hearlier htargets'
  have hmark := h.mark_of_latest rfl hperm hle (latest_of_latestTarget hlatest)
  have hexpand : timeline.expand o.terms now (fun n => ids (n + 1)) (ids 0) latest r.currency =
      .ok _ :=
    Timeline.expand_eq_ok.mpr ⟨_, Timeline.chargesOf_congr
      (Timeline.map_charge_of_expand h.expanded) hmark.symm, rfl⟩
  -- and the account can be put in order again
  have hitems : (itemsOn issued').Perm (itemsOn issued ++ v.items) :=
    (hperm.flatMap_right _).trans List.perm_append_comm
  have hanchored : ∀ i ∈ itemsOn issued', i.charge.Anchored := by
    intro i hi
    rcases List.mem_append.mp (hitems.subset hi) with hi | hi
    · exact hcharges i hi
    · exact h.anchored_of_mem_new hevents hcharges hi
  obtain ⟨existing, hexisting⟩ := arrange_of_anchored hanchored
  refine (run_eq_ok hne).mpr ⟨timeline, latest, _, [], ⟨h.ordered, hhorizon, hlatest, hexpand,
    existing, hexisting, ?_⟩, rfl⟩
  exact h.settle_again hids hfresh ((perm_of_arrange hexisting).trans hitems)
    (Timeline.map_charge_mapIdx ..) ..

end Ran

/-! ### The two laws -/

/-- **A run converges.** When the new ids are fresh, the recurring items that survive it are exactly
those that the events bill through the run's target; of every fixed key as many survive as the
events bill or as survived before, whichever is more. -/
theorem run_converges (hne : events ≠ []) (hids : ((itemsOn issued).map Item.id).Nodup)
    {result : Option Invoice} (hrun : o.run events issued r = .ok result)
    (hfresh : Fresh (itemsOn issued) (billed result)) (now : Moment) (ids : Nat → Uuid)
    (invoice : Uuid) :
    ∃ timeline target expansion,
      Timeline.of events = .ok timeline ∧ latestTarget r.target issued = .ok target ∧
      timeline.expand o.terms now ids invoice target r.currency = .ok expansion ∧
      (keys (recurring (surviving (itemsOn issued ++ billed result)))).Perm
        (keys (recurring expansion)) ∧
      ∀ key, key.kind = .fixed →
        (keys (surviving (itemsOn issued ++ billed result))).count key =
          max ((keys expansion).count key) ((keys (surviving (itemsOn issued))).count key) := by
  obtain ⟨timeline, target, proposed, new, hran, rfl⟩ := (run_eq_ok hne).mp hrun
  rw [billed_invoice] at hfresh ⊢
  obtain ⟨expansion, hexpand, hsame⟩ := hran.expand now ids invoice
  refine ⟨timeline, target, expansion, hran.ordered, hran.raised, hexpand, ?_, fun key hkey => ?_⟩
  · rw [keys_recurring_congr hsame]
    exact hran.recurring_surviving_perm hids hfresh
  · rw [hran.count_surviving hids hfresh, if_neg (by rw [hkey]; decide), keys_congr hsame]

open Sample in
/-- The old price of February is credited, and the fixed item stays. -/
theorem run_converges_correction :
    occasion.run [event] [outdated] request = .ok (some correction) ∧
      Fresh (itemsOn [outdated]) correction.items ∧
      ∃ timeline target expansion,
        Timeline.of [event] = .ok timeline ∧ latestTarget request.target [outdated] = .ok target ∧
        timeline.expand occasion.terms (day 1 1) uuid (uuid 0) target request.currency =
          .ok expansion ∧
        (keys (recurring (surviving (itemsOn [outdated] ++ correction.items)))).Perm
          (keys (recurring expansion)) ∧
        ∀ key, key.kind = .fixed →
          (keys (surviving (itemsOn [outdated] ++ correction.items))).count key =
            max ((keys expansion).count key)
              ((keys (surviving (itemsOn [outdated]))).count key) := by
  have hfresh : Fresh (itemsOn [outdated]) correction.items := ⟨by decide, by decide⟩
  exact ⟨run_outdated, hfresh,
    run_converges (by decide) (by decide) run_outdated hfresh (day 1 1) uuid (uuid 0)⟩

/-- **A run leaves nothing for the next.** With every moment anchored: after a run that billed
something, a run over the same events, the invoice it gave among those issued, for no later a target
and within the horizon, gives nothing. -/
theorem run_again {v : Invoice} (hrun : o.run events issued r = .ok (some v))
    (hevents : ∀ e ∈ events, e.effective.Anchored)
    (htargets : ∀ w ∈ issued, w.target.Anchored)
    (hcharges : ∀ i ∈ itemsOn issued, i.charge.Anchored) (htarget : r.target.Anchored)
    (hids : ((itemsOn issued).map Item.id).Nodup) (hfresh : Fresh (itemsOn issued) v.items)
    {issued' : List Invoice} (hperm : issued'.Perm (v :: issued)) {earlier now : Moment}
    (hearlier : earlier.Anchored) (hle : earlier.instant ≤ v.target.instant)
    (hhorizon : o.terms.checkHorizon now earlier = .ok ()) (ids : Nat → Uuid) :
    ({ o with now, ids } : Occasion).run events issued' { r with target := earlier } =
      .ok none := by
  obtain ⟨hne, timeline, proposed, hran⟩ := ran_of_run_some hrun
  exact hran.run_eq_nothing hne hevents htargets hcharges htarget hids hfresh hperm hearlier hle
    hhorizon ids

open Sample in
theorem run_again_correction :
    occasion.run [event] [outdated] request = .ok (some correction) ∧
      ({ occasion with now := day 2 3, ids := uuid } : Occasion).run [event] [outdated, correction]
        { request with target := day 1 20 } = .ok none := by
  have hcharges : ∀ i ∈ itemsOn [outdated], i.charge.start.Anchored ∧
      ∀ t ∈ i.charge.stop, t.Anchored := by decide
  refine ⟨run_outdated, run_again run_outdated (by decide) (by decide)
    (fun i hi => ⟨(hcharges i hi).1, (hcharges i hi).2⟩) (by decide) (by decide)
    ⟨by decide, by decide⟩ ?_ (by decide) (by decide) (by decide) uuid⟩
  exact .swap ..

end BillRun

import Bolt.BufferManager.BlocksPin

/-!
# What reclaiming achieves

With writes that succeed, `Reclaim` frees at least the target or all that can be freed,
and takes no candidate once the bytes it has submitted reach the target.
-/

namespace Bolt.BufferManager

open Lib List Manager SpillRun BlockMemory

variable {codec : SpillCodec} {start manager : Manager} {run : SpillRun}

def Manager.unpinnedResidentBytes (manager : Manager) : ℕ :=
  (manager.blocks.map fun memory => memory.amount .unpinnedResident).sum

theorem Manager.unpinnedResidentBytes_update (hn : (manager.blocks.map BlockMemory.id).Nodup)
    {memory memory' : BlockMemory} (hm : memory ∈ manager.blocks) (hid : memory'.id = memory.id) (stats : Stats) :
    (manager.update memory' stats).unpinnedResidentBytes + memory.amount .unpinnedResident =
      manager.unpinnedResidentBytes + memory'.amount .unpinnedResident :=
  Keyed.sum_replace (fun memory : BlockMemory => memory.amount .unpinnedResident) hn hm hid.symm

theorem amount_unpinned_of_spillable {memory : BlockMemory} (hs : spillable memory) :
    memory.amount .unpinnedResident = memory.size :=
  if_pos ⟨(spillable_iff.mp hs).2.1, (spillable_iff.mp hs).1⟩

theorem amount_unpinned_eq_zero {memory : BlockMemory} (hs : memory.state ≠ .inMemory) :
    memory.amount .unpinnedResident = 0 :=
  if_neg fun h => hs h.1

theorem BlockMemory.WellFormed.spillable {memory : BlockMemory} (hw : memory.WellFormed codec)
    (hs : memory.state = .inMemory) (hp : memory.pinCount = 0) : spillable memory = true :=
  spillable_iff.mpr ⟨hp, hs, hw.payload_iff.mpr hs⟩

theorem Accounts.unpinnedResidentBytes_eq_zero (ha : Accounts codec manager)
    (hn : ∀ memory ∈ manager.blocks, spillable memory = false) : manager.unpinnedResidentBytes = 0 := by
  apply sum_eq_zero
  intro amount ham
  obtain ⟨memory, hm, rfl⟩ := mem_map.mp ham
  apply if_neg
  intro h
  have hs := (ha.wellFormed memory hm).spillable h.1 h.2
  rw [hn memory hm] at hs
  cases hs

namespace SpillRun

/-- What a spill from the eviction queue has counted, when its writes succeed. -/
structure Tallied (targetBytes : ℕ) (start : Manager) (run : SpillRun) : Prop where
  candidates : run.candidates = .evictionQueue
  submitted : run.submitted = (run.taken.map size).sum
  reclaimed : run.reclaimed + (run.pending.map fun write => write.payload.length).sum = run.submitted
  unpinned : run.manager.unpinnedResidentBytes + run.submitted = start.unpinnedResidentBytes
  stops : ∀ before memory rest, run.taken = before ++ memory :: rest →
    targetBytes = 0 ∨ (before.map size).sum < targetBytes
  written : ∀ write ∈ run.pending, ∃ kind, write.write = .written kind
  exhausted : run.noMoreCandidates = true → ∀ memory ∈ run.manager.blocks, spillable memory = false

variable {targetBytes maxInflight : ℕ} {writes : ℕ → WriteOutcome}

/-- The last candidate was taken while the submitted bytes were below the target. -/
theorem stops_append {taken : List BlockMemory} {memory : BlockMemory}
    (hs : ∀ before other rest, taken = before ++ other :: rest →
      targetBytes = 0 ∨ (before.map size).sum < targetBytes)
    (hr : targetBytes = 0 ∨ (taken.map size).sum < targetBytes) :
    ∀ before other rest, taken ++ [memory] = before ++ other :: rest →
      targetBytes = 0 ∨ (before.map size).sum < targetBytes := by
  intro before other rest heq
  rcases eq_nil_or_concat rest with rfl | ⟨front, last, rfl⟩
  · rw [(append_inj' heq rfl).1] at hr
    exact hr
  · rw [concat_eq_append, ← cons_append, ← append_assoc] at heq
    exact hs before other front (append_inj' heq rfl).1

theorem nextCandidate_candidates (hc : run.candidates = .evictionQueue) :
    run.nextCandidate.2.candidates = .evictionQueue := by
  rw [nextCandidate, hc]

variable (hwrites : ∀ blockId, ∃ kind, writes blockId = .written kind) (ht : run.Tallied targetBytes start)
include ht

include hwrites in
theorem Tallied.takeCandidate {blockId : ℕ} {memory : BlockMemory} (hso : run.Sound codec start (some blockId)) (hma : run.MaySubmit maxInflight targetBytes)
    (hl : run.manager.lookup blockId = some memory) (hsp : spillable memory) :
    ∃ run', run.takeCandidate writes blockId = (.ok (), run') ∧ run'.Tallied targetBytes start ∧
      run'.remaining = run.remaining ∧ run'.pending.length ≤ run.pending.length + 1 := by
  have hm := lookup_mem hl
  have hsi := amount_unpinned_of_spillable hsp
  obtain ⟨hpi, hsta, hsom⟩ := spillable_iff.mp hsp
  obtain ⟨-, hr, hmor⟩ := hma
  rw [ht.submitted] at hr
  have hst := @stops_append _ _ memory ht.stops hr
  have hs := ht.submitted
  have hre := ht.reclaimed
  have hu := ht.unpinned
  unfold SpillRun.takeCandidate
  rw [hl]
  dsimp only
  split_ifs with hd
  · have hmo := unpinnedResidentBytes_update hso.accounts.nodup hm
      (show memory.discardResidentWithBacking.id = memory.id from rfl) (run.manager.stats.onCleanResidentDiscarded memory)
    have hg := @amount_unpinned_eq_zero memory.discardResidentWithBacking (by intro h; cases h)
    refine ⟨_, rfl, ⟨ht.candidates, ?_, ?_, ?_, hst, ht.written, ?_⟩, ?_, Nat.le_succ _⟩
    · rw [map_append, sum_append, ← hs]
      rfl
    · dsimp only
      omega
    · dsimp only
      omega
    · intro h
      rw [hmor] at h
      cases h
    · rw [remaining, remaining]
      rfl
  · obtain ⟨payload, hp⟩ := Option.isSome_iff_exists.mp hsom
    have hlen := (hso.accounts.wellFormed memory hm).payload_length payload hp
    have hmo := unpinnedResidentBytes_update hso.accounts.nodup hm
      (show memory.beginSpill.id = memory.id from rfl) (run.manager.stats.onSpillStarted memory.beginSpill)
    have hg := @amount_unpinned_eq_zero memory.beginSpill (by intro h; cases h)
    obtain ⟨kind, hki⟩ := hwrites memory.id
    unfold submit
    rw [hp, hki]
    refine ⟨_, rfl, ⟨ht.candidates, ?_, ?_, ?_, hst, ?_, ?_⟩, ?_, ?_⟩
    · rw [map_append, sum_append, ← hs]
      rfl
    · rw [map_append, sum_append, map_cons, map_nil, sum_singleton]
      dsimp only
      omega
    · dsimp only
      omega
    · intro write hw
      rcases mem_append.mp hw with hold | hn
      · exact ht.written write hold
      · rw [mem_singleton.mp hn]
        exact ⟨kind, rfl⟩
    · intro h
      rw [hmor] at h
      cases h
    · rw [remaining, remaining]
      rfl
    · rw [length_append, length_singleton]

theorem Tallied.requeue (queue : List EvictionEntry) (stale : ℕ) : Tallied targetBytes start { run with
      manager := { run.manager with evictionQueue := queue, staleEntries := stale }, candidates := .evictionQueue } :=
  { ht with candidates := rfl }

include hwrites in
/-- `submitMore` with enough fuel ends where its loop condition fails. -/
theorem Tallied.submitLoop (fuel : ℕ) (hso : run.Sound codec start none) :
    ∃ run', run.submitLoop maxInflight targetBytes writes fuel = (.ok (), run') ∧ run'.Tallied targetBytes start ∧
      run'.remaining + run'.pending.length ≤ run.remaining + run.pending.length ∧
      (run.remaining < fuel → ¬ run'.MaySubmit maxInflight targetBytes) := by
  induction fuel generalizing run with
  | zero => exact ⟨run, rfl, ht, Nat.le_refl _, fun h => absurd h (Nat.not_lt_zero _)⟩
  | succ fuel ih =>
    rw [submitLoop]
    split_ifs with hm
    · have hst := nextCandidate_candidates ht.candidates
      cases hn : run.nextCandidate.1 with
      | none =>
        obtain ⟨queue, stale, candidates, heq, -, hle, hno⟩ := nextCandidate_none hso hn
        have hs := hno ht.candidates
        rw [heq] at hst hle
        subst hst
        rw [heq]
        have hta := ht.requeue queue stale
        refine ⟨_, rfl, ?_, Nat.add_le_add_right hle _, ?_⟩
        · exact { hta with exhausted := fun _ => hs }
        · intro _ hma'
          cases hma'.2.2
      | some blockId =>
        obtain ⟨memory, queue, stale, candidates, hl, hsp, heq, hq, hlt⟩ := nextCandidate_some hso hn
        rw [heq] at hst hlt
        subst hst
        dsimp only
        rw [heq]
        have hp := hso.requeue .evictionQueue hq
        obtain ⟨taken, htak, hta, hr, hlen⟩ :=
          (ht.requeue queue stale).takeCandidate hwrites hp hm hl hsp
        have hso' := hp.takeCandidate hl hsp writes
        rw [htak] at hso' ⊢
        dsimp only at hso'
        obtain ⟨run', hr', htal', hme, hexi⟩ := ih hta hso'
        refine ⟨run', hr', htal', ?_, ?_⟩
        · dsimp only at hlen
          omega
        · intro hf
          apply hexi
          omega
    · exact ⟨run, rfl, ht, Nat.le_refl _, fun _ => hm⟩

theorem Tallied.harvestNext {write : PendingWrite} {rest : List PendingWrite} (hs : run.Sound codec start none) (hp : run.pending = write :: rest) :
    ∃ run', run.harvestNext codec write rest = (.ok (), run') ∧ run'.Tallied targetBytes start ∧
      run'.remaining = run.remaining ∧ run'.pending = rest := by
  have hme : write ∈ run.pending := by
    rw [hp]
    exact mem_cons_self
  obtain ⟨memory, hm, hid, hst, hl⟩ := hs.pending_spilling write hme
  obtain ⟨kind, hki⟩ := ht.written write hme
  have hmo := unpinnedResidentBytes_update hs.accounts.nodup hm
    (show (memory.completeSpill (buildSpillRecord codec kind write.payload)).id = memory.id from rfl)
    (run.manager.stats.onSpillCompleted memory)
  have hb := @amount_unpinned_eq_zero memory (by rw [hst]; decide)
  have ha := @amount_unpinned_eq_zero (memory.completeSpill (buildSpillRecord codec kind write.payload))
    (by intro h; cases h)
  have hr := ht.reclaimed
  have hu := ht.unpinned
  rw [hp, map_cons, sum_cons] at hr
  unfold SpillRun.harvestNext
  rw [← hid, hs.accounts.lookup hm, hki]
  refine ⟨_, rfl, ⟨ht.candidates, ht.submitted, ?_, ?_, ht.stops, ?_, ?_⟩, ?_, rfl⟩
  · dsimp only
    omega
  · dsimp only
    omega
  · intro other ho
    apply ht.written other
    rw [hp]
    exact mem_cons_of_mem _ ho
  · intro h other ho
    rcases Keyed.mem_replace ho with rfl | ⟨ho, _⟩
    · exact not_spillable (by intro h; cases h)
    · exact ht.exhausted h other ho
  · rw [remaining, remaining]
    rfl

/-- Nothing more is taken: the loop condition fails, or the target has been reclaimed. -/
def Finished (maxInflight targetBytes : ℕ) (run : SpillRun) : Prop :=
  ¬ run.MaySubmit maxInflight targetBytes ∨ targetBytes ≠ 0 ∧ targetBytes ≤ run.reclaimed

include hwrites in
theorem Tallied.drain (fuel : ℕ) (hso : run.Sound codec start none)
    (hf : run.Finished maxInflight targetBytes) (hfu : run.remaining + run.pending.length ≤ fuel) :
    ∃ run', run.drain codec maxInflight targetBytes writes fuel = (.ok (), run') ∧ run'.Tallied targetBytes start ∧
      run'.Finished maxInflight targetBytes ∧ run'.pending = [] := by
  induction fuel generalizing run with
  | zero =>
    refine ⟨run, rfl, ht, hf, ?_⟩
    apply length_eq_zero_iff.mp
    omega
  | succ fuel ih =>
    rw [drain]
    cases hp : run.pending with
    | nil => exact ⟨run, rfl, ht, hf, hp⟩
    | cons write rest =>
      obtain ⟨ha, hharvested, hta, hre, hr⟩ := ht.harvestNext hso hp
      have hso' := hso.harvestNext hp
      rw [hharvested] at hso'
      dsimp only at hso'
      rw [hp, length_cons] at hfu
      dsimp only
      rw [hharvested, Result.andThen]
      split_ifs with hm
      · obtain ⟨submitted, hs, htal', hme, hexi⟩ :=
          @Tallied.submitLoop _ _ _ _ maxInflight _ hwrites hta (ha.remaining + 1) hso'
        have hso'' := hso'.submitLoop maxInflight targetBytes writes (ha.remaining + 1)
        rw [hs] at hso''
        dsimp only at hso''
        unfold submitMore
        rw [hs, Result.andThen]
        apply ih htal' hso'' (.inl (hexi (Nat.lt_succ_self _)))
        rw [hr] at hme
        omega
      · rw [not_or, not_lt] at hm
        apply ih hta hso' (.inr hm)
        rw [hre, hr]
        omega

end SpillRun

theorem Manager.reclaimRun_spec {config : Config} (hc : Consistent config.codec manager)
    (hw : 0 < config.maxReclaimWriteInflight) (reclaiming : Reclaiming)
    (hwrites : ∀ blockId, ∃ kind, reclaiming.writes blockId = .written kind) :
    ∃ run, manager.reclaimRun config reclaiming = (.ok (), run) ∧ run.Tallied reclaiming.targetBytes manager ∧
      run.Finished config.maxReclaimWriteInflight reclaiming.targetBytes ∧ run.pending = [] := by
  have hso := hc.sound .evictionQueue
  have ht : Tallied reclaiming.targetBytes manager
      { manager := manager, candidates := .evictionQueue, pending := [], submitted := 0, reclaimed := 0
        noMoreCandidates := false, taken := [] } := by
    refine ⟨rfl, rfl, rfl, Nat.add_zero _, ?_, nofun, nofun⟩
    intro before memory rest heq
    exact absurd heq.symm (append_ne_nil_of_right_ne_nil _ (cons_ne_nil _ _))
  unfold reclaimRun spill
  rw [if_neg (Nat.pos_iff_ne_zero.mp hw)]
  obtain ⟨submitted, hs, hta, -, hexi⟩ :=
    @Tallied.submitLoop _ _ _ _ config.maxReclaimWriteInflight _ hwrites ht
      (manager.evictionQueue.length + 1) hso
  have hso' := hso.submitLoop config.maxReclaimWriteInflight reclaiming.targetBytes reclaiming.writes
    (manager.evictionQueue.length + 1)
  rw [hs] at hso'
  obtain ⟨run, hr, hta', hf, hp⟩ :=
    hta.drain hwrites _ hso' (.inl (hexi (Nat.lt_succ_self _))) (Nat.le_refl _)
  refine ⟨run, ?_, hta', hf, hp⟩
  rw [← hr]
  show Result.andThen (submitLoop _ _ _ (manager.evictionQueue.length + 1) _) _ = _
  rw [hs, Result.andThen]

instance (blocks : List BlockMemory) (entry : EvictionEntry) : Decidable (entry.IsFresh blocks) :=
  inferInstanceAs (Decidable (_ = true))

theorem Consistent.countP_fresh (hc : Consistent codec manager) {memory : BlockMemory}
    (hm : memory ∈ manager.blocks) (hsp : spillable memory) :
    manager.evictionQueue.countP (fun entry => entry.block = memory.id ∧ entry.IsFresh manager.blocks) = 1 := by
  rw [← hc.queue.queued memory hm hsp (by intro h; cases h), count]
  apply countP_congr
  intro entry _
  rw [decide_eq_true_iff, beq_iff_eq]
  constructor
  · rintro ⟨hb, hf⟩
    obtain ⟨found, hl, hs, -⟩ := hf.lookup
    rw [hb, Keyed.lookup_of_mem hc.accounts.nodup hm] at hl
    cases hl
    rw [← hb, hs]
  · intro heq
    rw [heq]
    exact ⟨rfl, isFresh_of_spillable hc.accounts.nodup hm hsp⟩

/-- After every history a block that is in memory without a pin has one entry in the
eviction queue that is not stale; only such blocks come off a queue, whatever precedes
them in it; and `Reclaim` with successful writes frees the target or all there is, taking
no block once the target is met. -/
theorem Manager.evictionQueue_complete (config : Config) (calls : List Call) :
    (∀ memory ∈ (after config calls).blocks, memory.state = .inMemory → memory.pinCount = 0 →
      (after config calls).evictionQueue.countP
        (fun entry => entry.block = memory.id ∧ entry.IsFresh (after config calls).blocks) = 1) ∧
    (∀ queue stale blockId, (popEvictable (after config calls).blocks queue stale).1 = some blockId →
      ∃ memory, (after config calls).lookup blockId = some memory ∧ memory.state = .inMemory ∧ memory.pinCount = 0) ∧
    ∀ reclaiming : Reclaiming, 0 < config.maxReclaimWriteInflight →
      (∀ blockId, ∃ kind, reclaiming.writes blockId = .written kind) →
      ∃ run, (after config calls).reclaimRun config reclaiming = (.ok (), run) ∧
        run.manager.unpinnedResidentBytes + run.reclaimed = (after config calls).unpinnedResidentBytes ∧
        (0 < reclaiming.targetBytes →
          min reclaiming.targetBytes (after config calls).unpinnedResidentBytes ≤ run.reclaimed) ∧
        (0 < reclaiming.targetBytes → ∀ before memory rest, run.taken = before ++ memory :: rest →
          (before.map size).sum < reclaiming.targetBytes) ∧
        (reclaiming.targetBytes = 0 → ∀ memory ∈ run.manager.blocks, memory.state = .inMemory → memory.pinCount ≠ 0) := by
  have hconsistent := consistent_after config calls
  generalize after config calls = manager at hconsistent
  refine ⟨?_, ?_, ?_⟩
  · intro memory hmemory hstate hpin
    exact hconsistent.countP_fresh hmemory ((hconsistent.accounts.wellFormed memory hmemory).spillable hstate hpin)
  · intro queue stale blockId hpop
    rcases popEvictable_spec manager.blocks queue stale with
      ⟨dropped, entry, rest, -, -, hfresh, hspec⟩ | ⟨-, hspec⟩
    · rw [hspec] at hpop
      cases hpop
      obtain ⟨memory, hlookup, -, hsp⟩ := hfresh.lookup
      exact ⟨memory, hlookup, (spillable_iff.mp hsp).2.1, (spillable_iff.mp hsp).1⟩
    · rw [hspec] at hpop
      cases hpop
  · intro reclaiming hwindow hwrites
    obtain ⟨run, hrun, htally, hfinished, hpending⟩ := reclaimRun_spec hconsistent hwindow reclaiming hwrites
    have hsound := spill_sound hconsistent config.maxReclaimWriteInflight reclaiming.targetBytes reclaiming.writes
      .evictionQueue
    rw [show spill config.codec config.maxReclaimWriteInflight reclaiming.targetBytes reclaiming.writes .evictionQueue
      manager = (.ok (), run) from hrun] at hsound
    have hreclaimed : run.reclaimed = run.submitted := by
      have h := htally.reclaimed
      rw [hpending] at h
      exact h
    have hunpinned := htally.unpinned
    -- nothing is pending, so the window has room and one of the other conditions fails
    have hend : run.noMoreCandidates = true ∨
        reclaiming.targetBytes ≠ 0 ∧ reclaiming.targetBytes ≤ run.reclaimed := by
      rcases hfinished with hexit | hdone
      · by_cases hmore : run.noMoreCandidates = true
        · exact .inl hmore
        · right
          by_contra hopen
          apply hexit
          refine ⟨by rw [hpending]; exact hwindow, ?_, Bool.eq_false_iff.mpr hmore⟩
          omega
      · exact .inr hdone
    refine ⟨run, hrun, by omega, ?_, ?_, ?_⟩
    · intro _
      rcases hend with hmore | ⟨-, hmet⟩
      · have hzero := hsound.accounts.unpinnedResidentBytes_eq_zero (htally.exhausted hmore)
        dsimp only at hzero
        omega
      · exact (Nat.min_le_left _ _).trans hmet
    · intro hpos before memory rest htaken
      rcases htally.stops before memory rest htaken with hzero | hlt
      · omega
      · exact hlt
    · intro hzero memory hmemory hstate hpin
      rcases hend with hmore | ⟨hne, -⟩
      · have hsp := (hsound.accounts.wellFormed memory hmemory).spillable hstate hpin
        rw [htally.exhausted hmore memory hmemory] at hsp
        cases hsp
      · exact hne hzero

def SpillCodec.identity : SpillCodec where
  compress _ raw := raw
  decompress _ stored rawSize := if stored.length = rawSize then some stored else none
  length_decompress := by
    intro kind stored rawSize raw h
    split_ifs at h with hlength
    cases h
    exact hlength
  decompress_compress := by
    intro kind raw
    exact if_pos rfl

/-- Two blocks are unpinned and one is pinned again; one byte is to be reclaimed. -/
theorem Manager.twoBlocks_complete : ∃ run, (after ⟨.identity, 1⟩
        [.allocate 2 .sort (fun _ => 7), .allocate 3 .window (fun _ => 8), .unpin 1, .unpin 2,
          .pin 1 (fun _ => none)]).reclaimRun ⟨.identity, 1⟩ ⟨1, fun _ => .written .none⟩ = (.ok (), run) ∧
      min 1 3 ≤ run.reclaimed := by
  obtain ⟨run, hrun, -, hmin, -⟩ := (evictionQueue_complete ⟨.identity, 1⟩
    [.allocate 2 .sort (fun _ => 7), .allocate 3 .window (fun _ => 8), .unpin 1, .unpin 2,
      .pin 1 (fun _ => none)]).2.2 ⟨1, fun _ => .written .none⟩ (by decide) (fun _ => ⟨.none, rfl⟩)
  exact ⟨run, hrun, hmin (by decide)⟩

end Bolt.BufferManager

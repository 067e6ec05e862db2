import Epiphany.Common.Runs
import Epiphany.Flow.Ledger
/-!
# Retention — scheduling before and after compaction

Compaction keeps the newest runs and every job's last success. A run that is
still unfinished may be older than those, and is then forgotten while it
goes on; and a success that a later record of its run covers is not found
among the latest records. Where neither happens, a compacted ledger answers
the scheduler as the full history does (`RunLedger.sameScheduling`).
-/

namespace Epiphany

namespace RunRecord

theorem eq_of_succeededFor {r : RunRecord} {cube job : String}
    (h : r.succeededFor cube job = true) :
    r.cube = cube ∧ r.target = job ∧ r.isJob = true ∧ r.state = .succeeded := by
  simp only [succeededFor, Bool.and_eq_true, beq_iff_eq] at h
  obtain ⟨⟨⟨hjob, hcube⟩, htarget⟩, hstate⟩ := h
  exact ⟨hcube, htarget, hjob, hstate⟩

end RunRecord

namespace RunLedger

variable {l f : RunLedger} {r p : RunRecord} {id cube job : String}

/-! ## The index -/

/-- What the index says of a run is a record of it. -/
theorem latestIndex_bound {records : List RunRecord} {i : Nat}
    (h : (latestIndex records)[id]? = some i) : ∃ r, records[i]? = some r ∧ r.id = id := by
  induction records using List.reverseRecOn with
  | nil =>
    rw [latestIndex, List.zipIdx_nil, List.foldl_nil, FinMap.get_empty] at h
    cases h
  | append_singleton records r ih =>
    rw [latestIndex_concat, FinMap.get_insert] at h
    split at h
    · rename_i hid
      obtain rfl := Option.some.inj h
      exact ⟨r, List.getElem?_concat_length, hid⟩
    · obtain ⟨r', hr', hid⟩ := ih h
      refine ⟨r', ?_, hid⟩
      rw [List.getElem?_append_left (List.getElem?_eq_some_iff.1 hr').1, hr']

theorem get_bound {i : Nat} (h : l.latest[id]? = some i) :
    ∃ r, l.records[i]? = some r ∧ r.id = id := by
  rw [l.indexed] at h
  exact latestIndex_bound h

theorem get_id (h : l.get id = some r) : r.id = id := by
  rw [get, Option.bind_eq_bind, Option.bind_eq_some_iff] at h
  obtain ⟨i, hi, hr⟩ := h
  obtain ⟨r', hr', hid⟩ := get_bound hi
  rw [hr] at hr'
  rw [Option.some.inj hr', hid]

theorem mem_records_of_get (h : l.get id = some r) : r ∈ l.records := by
  rw [get, Option.bind_eq_bind, Option.bind_eq_some_iff] at h
  obtain ⟨i, -, hr⟩ := h
  exact List.mem_of_getElem? hr

@[simp] theorem get_emptyLedger (n : Nat) : (empty n).get id = none := by
  simp [get, empty]

/-- The record taken in is the latest of its run; the others stay. -/
theorem get_index : (l.index r).get id = if r.id = id then some r else l.get id := by
  simp only [get, index, FinMap.get_insert, Option.bind_eq_bind]
  split
  · rw [Option.bind_some, List.getElem?_concat_length]
  · rcases hi : l.latest[id]? with _ | i
    · rfl
    · obtain ⟨r', hr', -⟩ := get_bound hi
      rw [Option.bind_some, Option.bind_some,
        List.getElem?_append_left (List.getElem?_eq_some_iff.1 hr').1]

theorem mem_latestRecords : r ∈ l.latestRecords ↔ l.get r.id = some r := by
  simp only [latestRecords, List.mem_filterMap, Prod.exists, FinMap.mem_toList, get,
    Option.bind_eq_bind, Option.bind_eq_some_iff]
  constructor
  · rintro ⟨id, i, hi, hr⟩
    obtain ⟨r', hr', rfl⟩ := get_bound hi
    obtain rfl := Option.some.inj (hr.symm.trans hr')
    exact ⟨i, hi, hr⟩
  · rintro ⟨i, hi, hr⟩
    exact ⟨r.id, i, hi, hr⟩

@[simp] theorem foldl_index_records (rs : List RunRecord) :
    (rs.foldl index l).records = l.records ++ rs := by
  induction rs generalizing l with
  | nil => exact (List.append_nil _).symm
  | cons r rs ih =>
    rw [List.foldl_cons, ih]
    exact List.append_assoc l.records [r] rs

@[simp] theorem foldl_index_maxRuns (rs : List RunRecord) :
    (rs.foldl index l).maxRuns = l.maxRuns := by
  induction rs generalizing l with
  | nil => rfl
  | cons r rs ih => exact ih

/-- In records of distinct runs every record is the latest of its run. -/
theorem get_foldl_index {rs : List RunRecord} (hrs : (rs.map RunRecord.id).Nodup) :
    (rs.foldl index l).get id = some r ↔
      (r ∈ rs ∧ r.id = id) ∨ (id ∉ rs.map RunRecord.id ∧ l.get id = some r) := by
  induction rs generalizing l with
  | nil => simp
  | cons p rs ih =>
    obtain ⟨hp, hrs⟩ := List.nodup_cons.1 hrs
    rw [List.foldl_cons, ih hrs, get_index, List.map_cons]
    by_cases hid : p.id = id
    · subst hid
      simp only [if_pos, Option.some.injEq, hp, not_false_eq_true, true_and, List.mem_cons,
        not_true, false_and, or_false]
      constructor
      · rintro (⟨hr, hrid⟩ | rfl)
        · exact ⟨Or.inr hr, hrid⟩
        · exact ⟨Or.inl rfl, rfl⟩
      · rintro ⟨rfl | hr, hrid⟩
        · exact Or.inr rfl
        · exact Or.inl ⟨hr, hrid⟩
    · have hne : id ≠ p.id := Ne.symm hid
      simp only [if_neg hid, List.mem_cons, hne, false_or]
      constructor
      · rintro (⟨hr, hrid⟩ | h)
        · exact Or.inl ⟨Or.inr hr, hrid⟩
        · exact Or.inr h
      · rintro (⟨rfl | hr, hrid⟩ | h)
        · exact absurd hrid hid
        · exact Or.inl ⟨hr, hrid⟩
        · exact Or.inr h

/-! ## What a compaction retains -/

theorem nodup_latestRecords (l : RunLedger) : (l.latestRecords.map RunRecord.id).Nodup := by
  have hids : l.latestRecords.map RunRecord.id =
      (l.latest.toList.filterMap fun e => (l.records[e.2]?).map RunRecord.id) := by
    rw [latestRecords, List.map_filterMap]
  rw [hids]
  have hsame : (l.latest.toList.filterMap fun e => (l.records[e.2]?).map RunRecord.id) =
      l.latest.toList.map Prod.fst := by
    rw [← List.filterMap_eq_map]
    refine List.filterMap_congr fun e he => ?_
    obtain ⟨r', hr', hid⟩ := get_bound (FinMap.mem_toList.1 he)
    rw [hr', Option.map_some, hid]
    rfl
  rw [hsame]
  exact FinMap.nodup_keys _

theorem nodup_retained (l : RunLedger) : (l.retained.map RunRecord.id).Nodup := by
  have hperm : l.retained.Perm
      ((l.latestRecords.insertionSort RunRecord.newestFirst).filter fun r => r.id ∈ l.keep) :=
    List.perm_insertionSort _ _
  refine (hperm.map _).nodup_iff.2 ?_
  have hsub := (List.filter_sublist (p := fun r => decide (r.id ∈ l.keep))
    (l := l.latestRecords.insertionSort RunRecord.newestFirst)).map RunRecord.id
  exact hsub.nodup (((List.perm_insertionSort _ _).map _).nodup_iff.2 l.nodup_latestRecords)

theorem mem_retained : r ∈ l.retained ↔ l.get r.id = some r ∧ r.id ∈ l.keep := by
  rw [retained, List.mem_insertionSort, List.mem_filter, List.mem_insertionSort, mem_latestRecords,
    decide_eq_true_eq]

/-- A compacted ledger has a run as it was, when it retains it. -/
theorem get_compacted {n : Nat} : (l.retained.foldl index (empty n)).get id = some r ↔
    l.get id = some r ∧ id ∈ l.keep := by
  rw [get_foldl_index l.nodup_retained, get_emptyLedger, mem_retained]
  constructor
  · rintro (⟨h, rfl⟩ | ⟨-, h⟩)
    · exact h
    · cases h
  · rintro ⟨h, hkeep⟩
    obtain rfl := get_id h
    exact Or.inl ⟨⟨h, hkeep⟩, rfl⟩

/-- A success counts as later by fire time, and then by id. -/
theorem toLex_laterSuccess (entry : Nat × String) (r : RunRecord) :
    toLex (laterSuccess entry r) = max (toLex entry) (toLex (r.fireMillis, r.id)) := by
  unfold laterSuccess
  split
  · rename_i h
    exact (max_eq_right (Prod.Lex.toLex_le_toLex'.2 ⟨by omega, fun heq => by
      rcases h with h | h
      · exact absurd heq (by simpa using h.ne)
      · exact h.2.le⟩)).symm
  · rename_i h
    rw [not_or, not_and, not_lt, not_lt] at h
    refine (max_eq_left (Prod.Lex.toLex_le_toLex'.2 ⟨h.1, fun heq => ?_⟩)).symm
    exact not_lt.1 (h.2 heq.symm)

/-- No success is later than the last one. -/
theorem le_foldl_laterSuccess (rs : List RunRecord) (entry : Nat × String) :
    toLex entry ≤ toLex (rs.foldl laterSuccess entry) ∧
      ∀ r ∈ rs, toLex (r.fireMillis, r.id) ≤ toLex (rs.foldl laterSuccess entry) := by
  induction rs generalizing entry with
  | nil => exact ⟨le_rfl, fun r hr => absurd hr List.not_mem_nil⟩
  | cons p rs ih =>
    obtain ⟨hle, hall⟩ := ih (laterSuccess entry p)
    rw [toLex_laterSuccess] at hle
    refine ⟨(le_max_left _ _).trans hle, fun r hr => ?_⟩
    rcases List.mem_cons.1 hr with rfl | hr
    · exact (le_max_right _ _).trans hle
    · exact hall r hr

/-- The last success is one of those looked at. -/
theorem foldl_laterSuccess_mem (rs : List RunRecord) (entry : Nat × String) :
    rs.foldl laterSuccess entry = entry ∨
      ∃ r ∈ rs, rs.foldl laterSuccess entry = (r.fireMillis, r.id) := by
  induction rs generalizing entry with
  | nil => exact Or.inl rfl
  | cons p rs ih =>
    rw [List.foldl_cons]
    rcases ih (laterSuccess entry p) with h | ⟨r, hr, h⟩
    · rw [h]
      unfold laterSuccess
      split
      · exact Or.inr ⟨p, List.mem_cons_self, rfl⟩
      · exact Or.inl rfl
    · exact Or.inr ⟨r, List.mem_cons_of_mem p hr, h⟩

theorem empty_le (s : String) : "" ≤ s := by
  rw [← not_lt, String.lt_iff_toList_lt]
  exact List.not_lt_nil _

/-- A compaction retains a last success of every job, among the latest
records. -/
theorem exists_kept_success (hr : r ∈ l.latestRecords) (hs : r.succeededFor cube job = true) :
    ∃ p ∈ l.latestRecords, p.succeededFor cube job = true ∧ p.id ∈ l.keep ∧
      r.fireMillis ≤ p.fireMillis := by
  have hmem : r ∈ l.latestRecords.filter (RunRecord.succeededFor cube job) :=
    List.mem_filter.2 ⟨hr, hs⟩
  have hle := (le_foldl_laterSuccess _ (0, "")).2 r hmem
  have hlast : ∃ p ∈ l.latestRecords.filter (RunRecord.succeededFor cube job),
      l.bestSuccess cube job = (p.fireMillis, p.id) := by
    rcases foldl_laterSuccess_mem (l.latestRecords.filter (RunRecord.succeededFor cube job))
        (0, "") with h | h
    · -- the scan found nothing later than its start, so the success is the start
      rw [h, Prod.Lex.toLex_le_toLex'] at hle
      have hfire : r.fireMillis = 0 := Nat.le_zero.1 hle.1
      have hid : r.id = "" := le_antisymm (hle.2 hfire) (empty_le _)
      refine ⟨r, hmem, ?_⟩
      rw [bestSuccess, h, hfire, hid]
    · exact h
  obtain ⟨p, hp, hbest⟩ := hlast
  obtain ⟨hpl, hps⟩ := List.mem_filter.1 hp
  refine ⟨p, hpl, hps, ?_, ?_⟩
  · obtain ⟨hcube, htarget, hjob, hstate⟩ := RunRecord.eq_of_succeededFor hps
    refine List.mem_append_left _ (List.mem_map.2 ⟨p, ?_, ?_⟩)
    · exact List.mem_filter.2 ⟨hpl, by simp [hjob, hstate]⟩
    · rw [hcube, htarget, hbest]
  · have hfold : toLex (r.fireMillis, r.id) ≤ toLex (l.bestSuccess cube job) := hle
    rw [hbest, Prod.Lex.toLex_le_toLex'] at hfold
    exact hfold.1

end RunLedger

/-! ## Successes -/

/-- Every success of a job in the first records is no later than one in the
second. -/
def Covers (rs ps : List RunRecord) : Prop :=
  ∀ r ∈ rs, r.succeededFor r.cube r.target = true →
    ∃ p ∈ ps, p.succeededFor r.cube r.target = true ∧ r.fireMillis ≤ p.fireMillis

instance {rs ps : List RunRecord} : Decidable (Covers rs ps) :=
  inferInstanceAs (Decidable (∀ r ∈ rs, _ → ∃ p ∈ ps, _ ∧ _))

namespace Covers

variable {rs ps qs : List RunRecord} {r : RunRecord}

theorem exists_mem {cube job : String} (h : Covers rs ps) (hr : r ∈ rs)
    (hs : r.succeededFor cube job = true) :
    ∃ p ∈ ps, p.succeededFor cube job = true ∧ r.fireMillis ≤ p.fireMillis := by
  obtain ⟨rfl, rfl, -, -⟩ := RunRecord.eq_of_succeededFor hs
  exact h r hr hs

theorem of_subset (h : rs ⊆ ps) : Covers rs ps := fun r hr hs => ⟨r, h hr, hs, le_rfl⟩

theorem trans (h : Covers rs ps) (h' : Covers ps qs) : Covers rs qs := by
  intro r hr hs
  obtain ⟨p, hp, hps, hle⟩ := h r hr hs
  obtain ⟨q, hq, hqs, hle'⟩ := h'.exists_mem hp hps
  exact ⟨q, hq, hqs, hle.trans hle'⟩

/-- A record more on both sides. -/
theorem concat (h : Covers rs ps) (r : RunRecord) : Covers (rs ++ [r]) (ps ++ [r]) := by
  intro q hq hs
  rcases List.mem_append.1 hq with hq | hq
  · obtain ⟨p, hp, hrest⟩ := h q hq hs
    exact ⟨p, List.mem_append_left _ hp, hrest⟩
  · exact ⟨q, List.mem_append_right _ hq, hs, le_rfl⟩

/-- A record more that is no success of a job. -/
theorem of_concat (hr : r.state ≠ .succeeded) : Covers (rs ++ [r]) rs := by
  intro q hq hs
  rcases List.mem_append.1 hq with hq | hq
  · exact ⟨q, hq, hs, le_rfl⟩
  · obtain rfl := List.mem_singleton.1 hq
    exact absurd (RunRecord.eq_of_succeededFor hs).2.2.2 hr

/-- Records that cover each other have the same last success of a job. -/
theorem max?_eq (h : Covers rs ps) (h' : Covers ps rs) (cube job : String) :
    ((rs.filter (RunRecord.succeededFor cube job)).map RunRecord.fireMillis).max? =
      ((ps.filter (RunRecord.succeededFor cube job)).map RunRecord.fireMillis).max? := by
  have hbound : ∀ {rs ps : List RunRecord}, Covers rs ps → ∀ t,
      t ∈ (rs.filter (RunRecord.succeededFor cube job)).map RunRecord.fireMillis →
      ∃ t' ∈ (ps.filter (RunRecord.succeededFor cube job)).map RunRecord.fireMillis, t ≤ t' := by
    intro rs ps hcov t ht
    obtain ⟨r, hr, rfl⟩ := List.mem_map.1 ht
    obtain ⟨hr, hs⟩ := List.mem_filter.1 hr
    obtain ⟨p, hp, hps, hle⟩ := hcov.exists_mem hr hs
    exact ⟨p.fireMillis, List.mem_map_of_mem (List.mem_filter.2 ⟨hp, hps⟩), hle⟩
  refine Option.ext fun t => ?_
  rw [List.max?_eq_some_iff, List.max?_eq_some_iff]
  constructor
  · rintro ⟨ht, hmax⟩
    obtain ⟨t', ht', hle⟩ := hbound h t ht
    obtain ⟨t'', ht'', hle'⟩ := hbound h' t' ht'
    have heq : t' = t := le_antisymm (hle'.trans (hmax t'' ht'')) hle
    refine ⟨heq ▸ ht', fun b hb => ?_⟩
    obtain ⟨b', hb', hbb⟩ := hbound h' b hb
    exact hbb.trans (hmax b' hb')
  · rintro ⟨ht, hmax⟩
    obtain ⟨t', ht', hle⟩ := hbound h' t ht
    obtain ⟨t'', ht'', hle'⟩ := hbound h t' ht'
    have heq : t' = t := le_antisymm (hle'.trans (hmax t'' ht'')) hle
    refine ⟨heq ▸ ht', fun b hb => ?_⟩
    obtain ⟨b', hb', hbb⟩ := hbound h b hb
    exact hbb.trans (hmax b' hb')

end Covers

/-! ## Compaction -/

namespace RunLedger

variable {l f : RunLedger} {r p : RunRecord} {id cube job : String}

/-- Every success of a job is no later than one that is the latest record of
its run. -/
def SuccessesStand (l : RunLedger) : Prop := Covers l.records l.latestRecords

/-- Every unfinished run of a job is among the newest. -/
def UnfinishedNewest (l : RunLedger) : Prop :=
  ∀ r ∈ l.latestRecords, r.isJob = true → r.state.isActive = true → r ∈ l.newest

instance : Decidable l.SuccessesStand := inferInstanceAs (Decidable (Covers _ _))

instance : Decidable l.UnfinishedNewest :=
  inferInstanceAs (Decidable (∀ r ∈ l.latestRecords, _ → _ → r ∈ l.newest))

theorem latestRecords_subset (l : RunLedger) : l.latestRecords ⊆ l.records :=
  fun _ hr => mem_records_of_get (mem_latestRecords.1 hr)

theorem retained_subset (l : RunLedger) : l.retained ⊆ l.latestRecords :=
  fun _ hr => mem_latestRecords.2 (mem_retained.1 hr).1

theorem covers_retained (l : RunLedger) : Covers l.latestRecords l.retained := by
  intro r hr hs
  obtain ⟨p, hp, hps, hkeep, hle⟩ := exists_kept_success hr hs
  exact ⟨p, mem_retained.2 ⟨mem_latestRecords.1 hp, hkeep⟩, hps, hle⟩

/-- The bound is enforced by leaving the ledger or by compacting it. -/
theorem enforceRetention_cases (l : RunLedger) : l.enforceRetention = l ∨
    (l.maxRuns ≠ 0 ∧ l.outgrown = true ∧
      l.enforceRetention = l.retained.foldl index (empty l.maxRuns)) := by
  unfold enforceRetention
  by_cases hmax : l.maxRuns = 0
  · exact Or.inl (if_pos hmax)
  · by_cases hout : l.outgrown = false
    · exact Or.inl (by rw [if_neg hmax, if_pos hout])
    · by_cases hlen : l.retained.length = l.records.length
      · exact Or.inl (by rw [if_neg hmax, if_neg hout, if_pos hlen])
      · refine Or.inr ⟨hmax, by simpa using hout, ?_⟩
        rw [if_neg hmax, if_neg hout, if_neg hlen]

theorem enforceRetention_unbounded (h : l.maxRuns = 0) : l.enforceRetention = l := by
  rw [enforceRetention, if_pos h]

theorem enforceRetention_maxRuns (l : RunLedger) : l.enforceRetention.maxRuns = l.maxRuns := by
  rcases l.enforceRetention_cases with h | ⟨-, -, h⟩
  · rw [h]
  · rw [h, foldl_index_maxRuns]
    rfl

/-- Nothing is made up by enforcing the bound. -/
theorem get_of_enforceRetention (h : l.enforceRetention.get id = some r) : l.get id = some r := by
  rcases l.enforceRetention_cases with heq | ⟨-, -, heq⟩
  · rwa [heq] at h
  · rw [heq] at h
    exact (get_compacted.1 h).1

/-- An unfinished run of a job that is among the newest stays. -/
theorem get_enforceRetention (hnew : l.maxRuns ≠ 0 → l.outgrown = true → l.UnfinishedNewest)
    (h : l.get id = some r) (hjob : r.isJob = true) (hactive : r.state.isActive = true) :
    l.enforceRetention.get id = some r := by
  rcases l.enforceRetention_cases with heq | ⟨hmax, hout, heq⟩
  · rwa [heq]
  · obtain rfl := get_id h
    have hmem := hnew hmax hout r (mem_latestRecords.2 h) hjob hactive
    rw [heq, get_compacted]
    exact ⟨h, List.mem_append_right _ (List.mem_map_of_mem hmem)⟩

/-- The records left cover the records there were, and the other way. -/
theorem covers_enforceRetention
    (hstand : l.maxRuns ≠ 0 → l.outgrown = true → l.SuccessesStand) :
    Covers l.records l.enforceRetention.records ∧
      Covers l.enforceRetention.records l.records := by
  rcases l.enforceRetention_cases with heq | ⟨hmax, hout, heq⟩
  · rw [heq]
    exact ⟨.of_subset (List.Subset.refl _), .of_subset (List.Subset.refl _)⟩
  · rw [heq, foldl_index_records]
    refine ⟨?_, .of_subset ?_⟩
    · exact (hstand hmax hout).trans l.covers_retained
    · exact fun r hr => l.latestRecords_subset (l.retained_subset hr)

/-- After a compaction every record is the latest of its run. -/
theorem successesStand_enforceRetention (h : l.SuccessesStand) :
    l.enforceRetention.SuccessesStand := by
  rcases l.enforceRetention_cases with heq | ⟨-, -, heq⟩
  · rwa [heq]
  · rw [heq]
    refine .of_subset fun r hr => ?_
    have hret : r ∈ l.retained := by rwa [foldl_index_records] at hr
    rw [mem_latestRecords, get_compacted]
    exact mem_retained.1 hret

end RunLedger

/-! ## Reopening -/

/-- What a restart makes of a run: an unfinished one was interrupted. -/
def RunRecord.settled (r : RunRecord) : RunRecord :=
  if r.state.isActive = true then r.interrupted else r

theorem RunRecord.interrupted_ne_succeeded (r : RunRecord) : r.interrupted.state ≠ .succeeded := by
  intro h
  cases h

theorem RunRecord.settled_id (r : RunRecord) : r.settled.id = r.id := by
  unfold settled
  split <;> rfl

theorem RunRecord.not_isActive_settled (r : RunRecord) : r.settled.state.isActive = false := by
  unfold settled
  split
  · rfl
  · rename_i h
    simpa using h

namespace RunLedger

variable {l lk f : RunLedger} {r p : RunRecord} {pending : List RunRecord} {id cube job : String}

theorem mem_interruptedRuns : p ∈ l.interruptedRuns ↔
    ∃ r, l.get r.id = some r ∧ r.state.isActive = true ∧ r.interrupted = p := by
  simp only [interruptedRuns, List.mem_insertionSort, List.mem_map, List.mem_filter,
    mem_latestRecords, and_assoc]

/-- While a restart goes over the unfinished runs: a run is as it was and
still pending, or settled; an unbounded ledger has all runs. -/
structure Recovering (l : RunLedger) (pending : List RunRecord) (lk : RunLedger) : Prop where
  sub : ∀ id r', lk.get id = some r' →
    ∃ r, l.get id = some r ∧ (r' = r.settled ∨ (r' = r ∧ r.settled ∈ pending))
  full : l.maxRuns = 0 → ∀ id r, l.get id = some r →
    lk.get id = some r.settled ∨ (lk.get id = some r ∧ r.settled ∈ pending)
  covers : Covers l.records lk.records ∧ Covers lk.records l.records
  maxRuns : lk.maxRuns = l.maxRuns
  stand : l.maxRuns ≠ 0 → lk.SuccessesStand

theorem Recovering.start (hstand : l.maxRuns ≠ 0 → l.SuccessesStand) :
    Recovering l l.interruptedRuns l := by
  have hsettled : ∀ {id r}, l.get id = some r → r = r.settled ∨ r.settled ∈ l.interruptedRuns := by
    intro id r h
    obtain rfl := get_id h
    unfold RunRecord.settled
    split
    · rename_i hactive
      exact Or.inr (mem_interruptedRuns.2 ⟨r, h, hactive, rfl⟩)
    · exact Or.inl rfl
  refine ⟨fun id r h => ⟨r, h, ?_⟩, fun _ id r h => ?_,
    ⟨.of_subset (List.Subset.refl _), .of_subset (List.Subset.refl _)⟩, rfl, hstand⟩
  · exact (hsettled h).imp_right fun hpend => ⟨rfl, hpend⟩
  · rcases hsettled h with heq | hpend
    · exact Or.inl (heq ▸ h)
    · exact Or.inr ⟨h, hpend⟩

/-- The record of an interrupted run covers no success of it. -/
theorem Recovering.stand_index (h : Recovering l pending lk) (hr : l.get r.id = some r)
    (hactive : r.state.isActive = true) (hmax : l.maxRuns ≠ 0) :
    (lk.index r.interrupted).SuccessesStand := by
  have hstand : Covers lk.records lk.latestRecords := h.stand hmax
  have hlatest : Covers lk.latestRecords (lk.index r.interrupted).latestRecords := by
    intro q hq hs
    refine ⟨q, ?_, hs, le_rfl⟩
    rw [mem_latestRecords] at hq ⊢
    rw [get_index, if_neg]
    · exact hq
    · -- the run of this record is unfinished or settled, so it is no success
      intro hid
      obtain ⟨r₀, hr₀, hcase⟩ := h.sub q.id q hq
      rw [show q.id = r.id from hid.symm, hr, Option.some.injEq] at hr₀
      subst hr₀
      have hsucc := (RunRecord.eq_of_succeededFor hs).2.2.2
      rcases hcase with heq | ⟨heq, -⟩
      · rw [heq, RunRecord.settled, if_pos hactive] at hsucc
        cases hsucc
      · rw [heq] at hsucc
        rw [hsucc] at hactive
        cases hactive
  exact (Covers.of_concat r.interrupted_ne_succeeded).trans
    (hstand.trans hlatest)

/-- One interrupted run more is recorded. -/
theorem Recovering.step (h : Recovering l (r.interrupted :: pending) lk)
    (hr : l.get r.id = some r) (hactive : r.state.isActive = true) :
    Recovering l pending (lk.append r.interrupted) := by
  have hsettled : r.settled = r.interrupted := if_pos hactive
  -- only the run that is settled now leaves the list of those still to come
  have hother : ∀ q : RunRecord, r.id ≠ q.id → q.settled ∈ r.interrupted :: pending →
      q.settled ∈ pending := by
    intro q hne hq
    rcases List.mem_cons.1 hq with heq | hq
    · have hid : q.settled.id = r.interrupted.id := congrArg RunRecord.id heq
      rw [RunRecord.settled_id] at hid
      exact absurd hid.symm hne
    · exact hq
  have hcov := covers_enforceRetention (l := lk.index r.interrupted) fun hmax _ =>
    h.stand_index hr hactive (h.maxRuns ▸ hmax)
  refine ⟨?_, ?_, ?_, ?_, ?_⟩
  · intro id r' hget
    have hindex := get_of_enforceRetention hget
    rw [get_index] at hindex
    split at hindex
    · rename_i hid
      obtain rfl := Option.some.inj hindex
      refine ⟨r, ?_, Or.inl hsettled.symm⟩
      rw [← hid]
      exact hr
    · rename_i hne
      obtain ⟨q, hq, hcase⟩ := h.sub id r' hindex
      have hqid := get_id hq
      exact ⟨q, hq, hcase.imp_right fun hpend => ⟨hpend.1, hother q (hqid ▸ hne) hpend.2⟩⟩
  · intro hmax id q hq
    have hunbounded : (lk.index r.interrupted).maxRuns = 0 := h.maxRuns.trans hmax
    rw [append, enforceRetention_unbounded hunbounded, get_index]
    have hqid := get_id hq
    by_cases hid : r.interrupted.id = id
    · have hrq : r = q := by
        rw [← hid] at hq
        exact Option.some.inj (hr.symm.trans hq)
      rw [if_pos hid, ← hrq, hsettled]
      exact Or.inl rfl
    · rw [if_neg hid]
      exact (h.full hmax id q hq).imp_right fun hpend =>
        ⟨hpend.1, hother q (hqid ▸ hid) hpend.2⟩
  · have hindex : Covers lk.records (lk.index r.interrupted).records :=
      .of_subset (List.subset_append_left _ _)
    have hindex' : Covers (lk.index r.interrupted).records lk.records :=
      .of_concat r.interrupted_ne_succeeded
    exact ⟨h.covers.1.trans (hindex.trans hcov.1), hcov.2.trans (hindex'.trans h.covers.2)⟩
  · rw [append, enforceRetention_maxRuns]
    exact h.maxRuns
  · intro hmax
    exact successesStand_enforceRetention (h.stand_index hr hactive hmax)

/-- The restart has gone over all unfinished runs. -/
theorem recovering_recoverInterrupted (hstand : l.maxRuns ≠ 0 → l.SuccessesStand) :
    Recovering l [] l.recoverInterrupted := by
  have hloop : ∀ (pending : List RunRecord) (lk : RunLedger),
      (∀ p ∈ pending, p ∈ l.interruptedRuns) → Recovering l pending lk →
      Recovering l [] (pending.foldl append lk) := by
    intro pending
    induction pending with
    | nil =>
      intro lk _ h
      exact h
    | cons p pending ih =>
      intro lk hall h
      obtain ⟨r, hr, hactive, rfl⟩ := mem_interruptedRuns.1 (hall p List.mem_cons_self)
      exact ih _ (fun q hq => hall q (List.mem_cons_of_mem _ hq)) (h.step hr hactive)
  exact hloop _ l (fun _ hp => hp) (.start hstand)

end RunLedger

/-! ## Histories -/

/-- A use of the ledger. -/
inductive LedgerOp where
  | append (record : RunRecord)
  /-- Stop and open again, with this bound. -/
  | reopen (maxRuns : Nat)

namespace LedgerOp

/-- The same without a bound. -/
def unbounded : LedgerOp → LedgerOp
  | append r => append r
  | reopen _ => reopen 0

end LedgerOp

namespace RunLedger

variable {l f : RunLedger} {r : RunRecord} {id cube job : String}

def apply (l : RunLedger) : LedgerOp → Except Empty RunLedger
  | .append r => .ok (l.append r)
  | .reopen maxRuns => .ok (openWithPolicy l.records maxRuns)

/-- Two ledgers the scheduler cannot tell apart. -/
def SameScheduling (l f : RunLedger) : Prop :=
  (∀ jobs now, dueFirings jobs l now = dueFirings jobs f now) ∧
    (∀ cube job, l.lastSucceededFire cube job = f.lastSucceededFire cube job) ∧
    ∀ cube job, l.jobInFlight cube job = f.jobInFlight cube job

/-- What a step may compact can be compacted: the successes stand, and no
unfinished run of a job is older than the runs that are retained. A restart
leaves no run unfinished. -/
def Compactable (l : RunLedger) : LedgerOp → Prop
  | .append r => (l.index r).maxRuns ≠ 0 → (l.index r).outgrown = true →
      (l.index r).SuccessesStand ∧ (l.index r).UnfinishedNewest
  | .reopen maxRuns => maxRuns ≠ 0 → l.SuccessesStand

instance (l : RunLedger) (op : LedgerOp) : Decidable (l.Compactable op) :=
  match op with
  | .append r => inferInstanceAs (Decidable ((l.index r).maxRuns ≠ 0 → _ → _ ∧ _))
  | .reopen maxRuns => inferInstanceAs (Decidable (maxRuns ≠ 0 → _))

/-- A ledger has the runs of the full one that matter. -/
structure Agrees (l f : RunLedger) : Prop where
  sub : ∀ id r, l.get id = some r → f.get id = some r
  active : ∀ id r, f.get id = some r → r.isJob = true → r.state.isActive = true →
    l.get id = some r
  covers : Covers l.records f.records ∧ Covers f.records l.records
  unbounded : f.maxRuns = 0

theorem Agrees.start (maxRuns : Nat) : Agrees (empty maxRuns) (empty 0) := by
  refine ⟨fun id r h => ?_, fun id r h => ?_, ⟨.of_subset (List.Subset.refl _),
    .of_subset (List.Subset.refl _)⟩, rfl⟩
  · rw [get_emptyLedger] at h
    cases h
  · rw [get_emptyLedger] at h
    cases h

theorem Agrees.index (h : Agrees l f) (r : RunRecord) : Agrees (l.index r) (f.index r) := by
  refine ⟨fun id q hq => ?_, fun id q hq hjob hactive => ?_,
    ⟨h.covers.1.concat r, h.covers.2.concat r⟩, h.unbounded⟩
  · rw [get_index] at hq ⊢
    split
    · rename_i hid
      rwa [if_pos hid] at hq
    · rename_i hid
      rw [if_neg hid] at hq
      exact h.sub id q hq
  · rw [get_index] at hq ⊢
    split
    · rename_i hid
      rwa [if_pos hid] at hq
    · rename_i hid
      rw [if_neg hid] at hq
      exact h.active id q hq hjob hactive

theorem Agrees.append (h : Agrees l f) (hc : l.Compactable (.append r)) :
    Agrees (l.append r) (f.append r) := by
  have hindex := h.index r
  have hcov := covers_enforceRetention fun hmax hout => (hc hmax hout).1
  rw [RunLedger.append, RunLedger.append, enforceRetention_unbounded hindex.unbounded]
  refine ⟨fun id q hq => hindex.sub id q (get_of_enforceRetention hq),
    fun id q hq hjob hactive => ?_,
    ⟨hcov.2.trans hindex.covers.1, hindex.covers.2.trans hcov.1⟩, hindex.unbounded⟩
  exact get_enforceRetention (fun hmax hout => (hc hmax hout).2)
    (hindex.active id q hq hjob hactive) hjob hactive

/-- The records read back make the ledger again. -/
theorem get_reindexed (l : RunLedger) (maxRuns : Nat) :
    (l.records.foldl RunLedger.index (empty maxRuns)).get id = l.get id := by
  have hrecords : (l.records.foldl RunLedger.index (empty maxRuns)).records = l.records := by
    rw [foldl_index_records]
    rfl
  rw [get, get, indexed, indexed, hrecords]

/-- What a restart leaves: the runs of the ledger, settled. -/
theorem reopened (l : RunLedger) {maxRuns : Nat} (hstand : maxRuns ≠ 0 → l.SuccessesStand) :
    (∀ id r', (openWithPolicy l.records maxRuns).get id = some r' →
        ∃ r, l.get id = some r ∧ r' = r.settled) ∧
      (maxRuns = 0 → ∀ id r, l.get id = some r →
        (openWithPolicy l.records maxRuns).get id = some r.settled) ∧
      Covers l.records (openWithPolicy l.records maxRuns).records ∧
      Covers (openWithPolicy l.records maxRuns).records l.records ∧
      (openWithPolicy l.records maxRuns).maxRuns = maxRuns := by
  have hrecords : (l.records.foldl RunLedger.index (empty maxRuns)).records = l.records := by
    rw [foldl_index_records]
    rfl
  have hbound : (l.records.foldl RunLedger.index (empty maxRuns)).maxRuns = maxRuns := by
    rw [foldl_index_maxRuns]
    rfl
  have hstand' : (l.records.foldl RunLedger.index (empty maxRuns)).maxRuns ≠ 0 →
      (l.records.foldl RunLedger.index (empty maxRuns)).SuccessesStand := by
    intro hmax
    rw [hbound] at hmax
    unfold SuccessesStand
    rw [hrecords]
    refine (hstand hmax).trans (.of_subset fun r hr => ?_)
    rw [mem_latestRecords] at hr ⊢
    rwa [get_reindexed]
  have hrec := recovering_recoverInterrupted hstand'
  have hcov := covers_enforceRetention
    (l := (l.records.foldl RunLedger.index (empty maxRuns)).recoverInterrupted)
    fun hmax _ => hrec.stand (hrec.maxRuns ▸ hmax)
  have hcovers := hrec.covers
  rw [hrecords] at hcovers
  refine ⟨fun id r' h => ?_, fun hmax id r h => ?_, hcovers.1.trans hcov.1,
    hcov.2.trans hcovers.2, ?_⟩
  · obtain ⟨r, hr, hcase⟩ := hrec.sub id r' (get_of_enforceRetention h)
    rw [get_reindexed] at hr
    rcases hcase with heq | ⟨-, hpend⟩
    · exact ⟨r, hr, heq⟩
    · cases hpend
  · have hmax' : (l.records.foldl RunLedger.index (empty maxRuns)).recoverInterrupted.maxRuns = 0 :=
      hrec.maxRuns.trans (hbound.trans hmax)
    rw [openWithPolicy, enforceRetention_unbounded hmax']
    rcases hrec.full (hbound.trans hmax) id r (by rw [get_reindexed]; exact h) with hget | ⟨-, hpend⟩
    · exact hget
    · cases hpend
  · rw [openWithPolicy, enforceRetention_maxRuns, hrec.maxRuns, hbound]

theorem Agrees.reopen (h : Agrees l f) {maxRuns : Nat} (hc : l.Compactable (.reopen maxRuns)) :
    Agrees (openWithPolicy l.records maxRuns) (openWithPolicy f.records 0) := by
  obtain ⟨hsub, -, hcov, hcov', -⟩ := l.reopened hc
  obtain ⟨hsub', hfull, hfcov, hfcov', hmax⟩ := f.reopened (fun h0 => absurd rfl h0)
  refine ⟨fun id r hr => ?_, fun id r hr _ hactive => ?_,
    ⟨hcov'.trans (h.covers.1.trans hfcov), hfcov'.trans (h.covers.2.trans hcov)⟩, hmax⟩
  · obtain ⟨q, hq, rfl⟩ := hsub id r hr
    exact hfull rfl id q (h.sub id q hq)
  · obtain ⟨q, -, rfl⟩ := hsub' id r hr
    rw [q.not_isActive_settled] at hactive
    cases hactive

/-- Agreeing ledgers are the same to the scheduler. -/
theorem Agrees.sameScheduling (h : Agrees l f) : l.SameScheduling f := by
  have hlast : ∀ cube job, l.lastSucceededFire cube job = f.lastSucceededFire cube job :=
    h.covers.1.max?_eq h.covers.2
  have hflight : ∀ cube job, l.jobInFlight cube job = f.jobInFlight cube job := by
    intro cube job
    rw [Bool.eq_iff_iff, jobInFlight, jobInFlight, List.any_eq_true, List.any_eq_true]
    constructor
    · rintro ⟨r, hr, hactive⟩
      exact ⟨r, mem_latestRecords.2 (h.sub _ _ (mem_latestRecords.1 hr)), hactive⟩
    · rintro ⟨r, hr, hactive⟩
      have hboth := hactive
      simp only [RunRecord.activeFor, Bool.and_eq_true] at hboth
      exact ⟨r, mem_latestRecords.2
        (h.active _ _ (mem_latestRecords.1 hr) hboth.1.1.1 hboth.2), hactive⟩
  refine ⟨fun jobs now => ?_, hlast, hflight⟩
  unfold dueFirings
  simp only [hlast, hflight]

/-- **Compaction.** In a history whose steps compact nothing that is still
needed, the ledger is at every point the same to the scheduler as the one
that is never compacted. -/
theorem sameScheduling_of_compactable (maxRuns : Nat) (history pre : List LedgerOp)
    (h : Meets apply Compactable (empty maxRuns) history) (hpre : pre <+: history) :
    (runCalls apply (empty maxRuns) pre).SameScheduling
      (runCalls apply (empty 0) (pre.map LedgerOp.unbounded)) := by
  refine (run_simulation (R := Agrees) ?_ (.start maxRuns) (h.of_prefix hpre)).sameScheduling
  intro l f op hagrees hcond
  cases op with
  | append r => exact hagrees.append (hcond rfl)
  | reopen maxRuns => exact hagrees.reopen (hcond rfl)

/-- A history with a success, an unfinished run, compactions that keep both,
and a restart. -/
def keepingHistory : List LedgerOp :=
  [.append ⟨"a", "Sales", "load", true, 1, .running, 0, 0, 0, "", "scheduler"⟩,
    .append ⟨"a", "Sales", "load", true, 1, .succeeded, 0, 0, 0, "", "scheduler"⟩,
    .append ⟨"b", "Sales", "load", true, 2, .queued, 0, 0, 0, "", "scheduler"⟩, .reopen 1]

theorem sameScheduling_of_keepingHistory :
    (runCalls apply (empty 1) keepingHistory).SameScheduling
      (runCalls apply (empty 0) (keepingHistory.map LedgerOp.unbounded)) :=
  sameScheduling_of_compactable 1 keepingHistory keepingHistory
    (show Meets apply Compactable (empty 1) keepingHistory by decide +kernel)
    (List.prefix_refl _)

/-- A slow job is still running when another job's runs outgrow the ledger. -/
def slowHistory : List LedgerOp :=
  [.append ⟨"slow-1", "Sales", "slow", true, 1, .running, 0, 0, 0, "", "scheduler"⟩,
    .append ⟨"fast-2", "Sales", "fast", true, 2, .succeeded, 0, 0, 0, "", "scheduler"⟩]

/-- The compaction drops the run that is still going on, and the job is not
in flight any more. -/
theorem not_sameScheduling_of_slowHistory :
    ¬ (runCalls apply (empty 1) slowHistory).SameScheduling
      (runCalls apply (empty 0) (slowHistory.map LedgerOp.unbounded)) := by
  intro h
  have hflight := h.2.2 "Sales" "slow"
  revert hflight
  decide +kernel

end RunLedger

end Epiphany

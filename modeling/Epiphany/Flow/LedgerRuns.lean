import Epiphany.Flow.LedgerFile
/-!
# The ledger's file — a success is not run again

An acknowledged success is in the file and in memory, or a later one of the
same job is, as long as records are appended to a file that ends in a whole
record, and no compaction is due while the success is not the latest record
of its run. A frame that a failed append tore hides every later one from the
next opening, and then the job is due again.
-/

namespace Epiphany

/-! ## Covering -/

namespace Covers

variable {rs ps : List RunRecord} {r : RunRecord}

theorem mono {qs : List RunRecord} (h : Covers qs ps) (hsub : rs ⊆ qs) : Covers rs ps :=
  fun r hr => h r (hsub hr)

/-- A record more that is there. -/
theorem concat_mem (h : Covers rs ps) (hr : r ∈ ps) : Covers (rs ++ [r]) ps := by
  intro q hq hs
  rcases List.mem_append.1 hq with hq | hq
  · exact h q hq hs
  · rw [List.mem_singleton.1 hq] at hs ⊢
    exact ⟨r, hr, hs, le_rfl⟩

end Covers

namespace RunLedger

variable {l : RunLedger} {r : RunRecord} {rs : List RunRecord}

theorem mem_latestRecords_index : r ∈ (l.index r).latestRecords := by
  rw [mem_latestRecords, get_index, if_pos rfl]

/-- A compaction keeps a cover among the latest records. -/
theorem covers_latest_enforceRetention (h : Covers rs l.latestRecords) :
    Covers rs l.enforceRetention.latestRecords := by
  rcases l.enforceRetention_cases with heq | ⟨-, -, heq⟩
  · rw [heq]
    exact h
  · rw [heq]
    refine (h.trans l.covers_retained).trans (.of_subset fun r hr => ?_)
    rw [mem_latestRecords, get_compacted]
    exact mem_retained.1 hr

/-- A record of a run that has no success covers no success. -/
theorem covers_latest_index (h : Covers rs l.latestRecords)
    (hr : ∀ q, l.get r.id = some q → q.state ≠ .succeeded) :
    Covers rs (l.index r).latestRecords := by
  intro p hp hs
  obtain ⟨q, hq, hqs, hle⟩ := h p hp hs
  refine ⟨q, ?_, hqs, hle⟩
  rw [mem_latestRecords] at hq ⊢
  rw [get_index]
  split_ifs with hid
  · rw [hid] at hr
    exact absurd (RunRecord.eq_of_succeededFor hqs).2.2.2 (hr q hq)
  · exact hq

end RunLedger

namespace LedgerFiles

open Fallible Files

variable {s s' : LedgerFiles} {l : RunLedger} {r : RunRecord} {rs records extra : List RunRecord}
  {bytes tail : List UInt8}

/-! ## The file -/

/-- The file of some records. -/
def logFile (records : List RunRecord) : List UInt8 :=
  Framing.writeLog header RunRecord.payload records

theorem logFile_concat (records : List RunRecord) (r : RunRecord) :
    logFile (records ++ [r]) = logFile records ++ r.encode :=
  Framing.writeLog_concat header RunRecord.payload records r

/-- A file of records, with something behind them that is no record. -/
structure Framed (records : List RunRecord) (bytes : List UInt8) : Prop where
  fits : ∀ r ∈ records, r.Fits
  shape : ∃ tail, bytes = logFile records ++ tail ∧ Framing.frameAt RunRecord.decode tail = none

theorem Framed.replay (h : Framed records bytes) :
    replay bytes = some (records, (logFile records).length) := by
  obtain ⟨tail, rfl, htail⟩ := h.shape
  exact Framing.readLog_append header RunRecord.payload
    (fun r hr => ⟨(h.fits r hr).length, RunRecord.decode_payload (h.fits r hr)⟩) htail

theorem framed_logFile (hfit : ∀ r ∈ records, r.Fits) : Framed records (logFile records) :=
  ⟨hfit, [], (List.append_nil _).symm, rfl⟩

/-- A torn append leaves no record behind. -/
theorem framed_torn (hfit : ∀ r ∈ records, r.Fits) (hr : r.Fits) (reached : Nat) :
    Framed records (logFile records ++ tornBytes r.encode reached) := by
  refine ⟨hfit, _, rfl, Framing.frameAt_take hr.length ?_⟩
  rw [Framing.length_frame, RunRecord.encode, Framing.length_frame]
  omega

theorem replay_torn_header (reached : Nat) : replay (tornBytes header reached) = none := by
  refine Framing.readLog_of_length_lt ?_
  have hlen : header.length = 8 := rfl
  rw [tornBytes, List.length_take]
  omega

theorem replay_nil : replay [] = none := Framing.readLog_of_length_lt (by decide)

theorem recovered_of_framed (hfile : s.file = some bytes) (h : Framed records bytes) :
    s.recovered = records := by
  rw [recovered, hfile, Option.bind_some, h.replay]
  rfl

theorem recovered_of_replay (hfile : s.file = some bytes) (h : replay bytes = none) :
    s.recovered = [] := by
  rw [recovered, hfile, Option.bind_some, h]
  rfl

theorem recovered_of_none (hfile : s.file = none) : s.recovered = [] := by
  rw [recovered, hfile]
  rfl

/-! ## What a run keeps -/

/-- A firing that was listed is later than the successes of its job that
were acknowledged before. -/
def Once (s : LedgerFiles) : Prop :=
  ∀ e ∈ s.listed, ∀ r ∈ e.2, r.succeededFor e.1.cube e.1.job = true →
    r.fireMillis < e.1.fireMillis

/-- The file at the path is the header and whole records, and the handle of
the open ledger stands at its end. -/
structure Clean (s : LedgerFiles) : Prop where
  attached : s.attached = true
  file : s.file = some (logFile s.recovered)
  cursor : s.cursor = (logFile s.recovered).length

instance (s : LedgerFiles) : Decidable s.Clean :=
  decidable_of_iff
    (s.attached = true ∧ s.file = some (logFile s.recovered) ∧
      s.cursor = (logFile s.recovered).length)
    ⟨fun h => ⟨h.1, h.2.1, h.2.2⟩, fun h => ⟨h.attached, h.file, h.cursor⟩⟩

/-- A record is appended behind whole records, it fits the format, and no
compaction drops an acknowledged success for it. What is due is asked when
the next time of a job lies after its last success, or that is past. And a
ledger with successes is not taken for missing when it is opened, and none
of them is dropped for a bound. -/
def Safe (s : LedgerFiles) : LedgerStep → Prop
  | .append r _ =>
    match s.ledger with
    | some l => s.Clean ∧ r.Fits ∧
      (l.maxRuns ≠ 0 → (l.index r).outgrown = true → Covers s.acked (l.index r).latestRecords)
    | none => True
  | .due jobs now =>
    match s.ledger with
    | some l => ∀ j ∈ jobs, ∀ last ∈ l.lastSucceededFire j.1 j.2.name,
      now ≤ last → last < j.2.trigger.nextDue (some last)
    | none => True
  | .crash => True
  | .reopen maxRuns plan =>
    (plan[0]?.join = none → plan[1]?.join ≠ none → Covers s.acked []) ∧
      (maxRuns ≠ 0 →
        Covers s.acked (s.recovered.foldl RunLedger.index (RunLedger.empty maxRuns)).latestRecords)

instance (s : LedgerFiles) (a : LedgerStep) : Decidable (s.Safe a) := by
  unfold Safe
  split
  · split
    · infer_instance
    · infer_instance
  · split
    · infer_instance
    · infer_instance
  · infer_instance
  · infer_instance

/-- The successes that were acknowledged, and those among some more records,
are in the file and in memory, or later ones are. -/
structure Keeps (extra : List RunRecord) (s : LedgerFiles) : Prop where
  file : ∀ bytes, s.file = some bytes → replay bytes = none ∨ ∃ rs, Framed rs bytes
  durable : Covers (s.acked ++ extra) s.recovered
  memory : ∀ l, s.ledger = some l → Covers (s.acked ++ extra) l.records ∧ ∀ r ∈ l.records, r.Fits
  once : s.Once

theorem keeps_fresh : fresh.Keeps [] := by
  refine ⟨fun bytes h => ?_, fun r hr => ?_, fun l h => ?_, fun e he => ?_⟩
  · cases h
  · cases hr
  · cases h
  · cases he

theorem Keeps.weaken (h : s.Keeps extra) : s.Keeps [] := by
  have hsub : s.acked ++ [] ⊆ s.acked ++ extra := by
    rw [List.append_nil]
    exact List.subset_append_left _ _
  exact ⟨h.file, h.durable.mono hsub, fun l hl => ⟨(h.memory l hl).1.mono hsub, (h.memory l hl).2⟩,
    h.once⟩

/-- A change of the files that the records in the file survive. -/
theorem Keeps.of_file (h : s.Keeps extra) (hledger : s'.ledger = s.ledger)
    (hacked : s'.acked = s.acked) (hlisted : s'.listed = s.listed)
    (hfile : ∀ bytes, s'.file = some bytes → replay bytes = none ∨ ∃ rs, Framed rs bytes)
    (hrec : s'.recovered = s.recovered) : s'.Keeps extra := by
  refine ⟨hfile, ?_, ?_, ?_⟩
  · rw [hacked, hrec]
    exact h.durable
  · rw [hacked, hledger]
    exact h.memory
  · unfold Once
    rw [hlisted]
    exact h.once

/-- A change of nothing but handles and other files. -/
theorem Keeps.of_eq (h : s.Keeps extra) (hledger : s'.ledger = s.ledger)
    (hacked : s'.acked = s.acked) (hlisted : s'.listed = s.listed) (hfile : s'.file = s.file) :
    s'.Keeps extra := by
  refine h.of_file hledger hacked hlisted ?_ ?_
  · rw [hfile]
    exact h.file
  · rw [recovered, hfile]
    rfl

/-- A ledger that is closed has nothing in memory. -/
theorem Keeps.closed (h : s.Keeps extra) : Keeps extra { s with ledger := none } :=
  ⟨h.file, h.durable, (fun l hl => by cases hl), h.once⟩

/-- A file of whole records holds the ones that are recovered. -/
theorem Keeps.framed (h : s.Keeps extra) (hclean : s.Clean) :
    Framed s.recovered (logFile s.recovered) := by
  rcases h.file _ hclean.file with hnone | ⟨rs, hframed⟩
  · have hempty : s.recovered = [] := recovered_of_replay hclean.file hnone
    rw [hempty]
    exact framed_logFile fun r hr => by cases hr
  · rw [recovered_of_framed hclean.file hframed]
    exact framed_logFile hframed.fits

/-! ## Retention -/

/-- The files while a compaction writes the retained records aside. -/
def withCompact (s : LedgerFiles) (content : Option (List UInt8)) : LedgerFiles :=
  { s with compact := content }

theorem doneAll_writeCompact (kept : List RunRecord) (c : List UInt8) :
    doneAll (kept.map fun r => writeCompact r.encode) (s.withCompact (some c)) =
      s.withCompact (some (c ++ kept.flatMap RunRecord.encode)) := by
  induction kept generalizing c with
  | nil => simp [doneAll]
  | cons r kept ih =>
    rw [List.map_cons, List.flatMap_cons, ← List.append_assoc, ← ih]
    rfl

/-- The retained records have been written aside. -/
theorem doneAll_aside (kept : List RunRecord) :
    doneAll (op (setCompact fun _ => []) :: writeCompact header ::
        (kept.map fun r => writeCompact r.encode) ++ [touch, touch]) s =
      s.withCompact (some (logFile kept)) := by
  rw [doneAll_append]
  exact doneAll_writeCompact kept header

/-- The files after the compacted ledger took the place of the ledger. -/
def compacted (s : LedgerFiles) (kept : List RunRecord) : LedgerFiles :=
  renameCompact (s.withCompact (some (logFile kept)))

/-- An open ledger whose file ends in a whole record. -/
structure Ready (extra : List RunRecord) (s : LedgerFiles) (l : RunLedger) : Prop where
  keeps : s.Keeps extra
  ledger : s.ledger = some l
  clean : s.Clean

theorem Ready.fits (h : s.Ready extra l) : ∀ r ∈ l.records, r.Fits :=
  (h.keeps.memory l h.ledger).2

/-- **Compaction** keeps the successes that are the latest of their runs. -/
theorem Ready.compacted (h : s.Ready extra l) (hstand : Covers (s.acked ++ extra) l.latestRecords) :
    (s.compacted l.retained).Keeps extra ∧ (s.compacted l.retained).recovered = l.retained := by
  have hfit : ∀ r ∈ l.retained, r.Fits :=
    fun r hr => h.fits r (l.latestRecords_subset (l.retained_subset hr))
  have hrec : (s.compacted l.retained).recovered = l.retained :=
    recovered_of_framed rfl (framed_logFile hfit)
  refine ⟨⟨fun bytes hb => ?_, ?_, h.keeps.memory, h.keeps.once⟩, hrec⟩
  · cases hb
    exact Or.inr ⟨l.retained, framed_logFile hfit⟩
  · rw [hrec]
    exact hstand.trans l.covers_retained

/-- The compacted ledger in memory, with a handle at the end of its file. -/
theorem Ready.reopened (h : s.Ready extra l) (hstand : Covers (s.acked ++ extra) l.latestRecords) :
    Ready extra (setLedger (l.retained.foldl RunLedger.index (RunLedger.empty l.maxRuns))
      (s.compacted l.retained).reopen)
      (l.retained.foldl RunLedger.index (RunLedger.empty l.maxRuns)) := by
  obtain ⟨hkeeps, hrec⟩ := h.compacted hstand
  refine ⟨⟨hkeeps.file, hkeeps.durable, ?_, hkeeps.once⟩, rfl, rfl, ?_, ?_⟩
  · rintro l' ⟨⟩
    rw [RunLedger.foldl_index_records]
    have hcover := hkeeps.durable
    rw [hrec] at hcover
    exact ⟨hcover, fun r hr => h.fits r (l.latestRecords_subset (l.retained_subset hr))⟩
  · change some (logFile l.retained) = some (logFile (s.compacted l.retained).recovered)
    rw [hrec]
  · change (logFile l.retained).length = (logFile (s.compacted l.retained).recovered).length
    rw [hrec]

/-- **Retention** leaves a ledger that can be appended to, or fails with
every success kept. -/
theorem ensures_enforceRetention (extra : List RunRecord) (l : RunLedger) (A : List RunRecord)
    (hstand : l.maxRuns ≠ 0 → l.outgrown = true → Covers (A ++ extra) l.latestRecords) :
    Ensures (On fun s => s.Ready extra l ∧ s.acked = A) enforceRetention
      (fun _ => On fun s => s.Ready extra l.enforceRetention ∧ s.acked = A) (On (Keeps extra)) := by
  refine Ensures.fix fun s ⟨h, hacked⟩ => ?_
  have hsame : ∀ l', l' = l.enforceRetention → l' = l →
      Ensures (On fun s' => s' = s) (Pure.pure () : LedgerM Unit)
        (fun _ => On fun s => s.Ready extra l.enforceRetention ∧ s.acked = A) (On (Keeps extra)) := by
    rintro _ rfl heq
    refine Ensures.pure () ?_
    rintro w rfl
    rw [heq]
    exact ⟨h, hacked⟩
  -- the file stays if there is no bound, if it is not outgrown, or if nothing is dropped
  unfold enforceRetention
  refine Ensures.read ?_
  simp only [h.ledger]
  by_cases hmax : l.maxRuns = 0
  · rw [if_pos hmax]
    exact hsame _ rfl (by rw [RunLedger.enforceRetention, if_pos hmax])
  by_cases hout : l.outgrown = false
  · rw [if_neg hmax, if_pos hout]
    exact hsame _ rfl (by rw [RunLedger.enforceRetention, if_neg hmax, if_pos hout])
  by_cases hlen : l.retained.length = l.records.length
  · rw [if_neg hmax, if_neg hout, if_pos hlen]
    exact hsame _ rfl (by rw [RunLedger.enforceRetention, if_neg hmax, if_neg hout, if_pos hlen])
  rw [if_neg hmax, if_neg hout, if_neg hlen]
  -- else what is retained goes to a file aside, and a fault before its rename changes nothing
  have hcover : Covers (s.acked ++ extra) l.latestRecords := by
    rw [hacked]
    exact hstand hmax (by simpa using hout)
  have hkeeps := (h.compacted hcover).1
  have hresult : l.enforceRetention = l.retained.foldl RunLedger.index (RunLedger.empty l.maxRuns) := by
    rw [RunLedger.enforceRetention, if_neg hmax, if_neg hout, if_neg hlen]
  have haside : ∀ c, (s.withCompact c).Keeps extra := fun c => h.keeps.of_eq rfl rfl rfl rfl
  refine Ensures.bind (R := fun _ => On fun s' => s' = (s.compacted l.retained).reopen) ?_ fun _ => ?_
  · rw [rewriteFile, attempts_append]
    refine Ensures.bind (R := fun _ => On fun s' => s' = s.withCompact (some (logFile l.retained)))
      ?_ fun _ => ?_
    · have hkeep : ∀ a ∈ op (setCompact fun _ => []) :: writeCompact header ::
          (l.retained.map fun r => writeCompact r.encode) ++ [touch, touch],
          ∀ s', (∃ c, s' = s.withCompact c) → (∃ c, a.done s' = s.withCompact c) ∧
            ∀ r, ∃ c, a.torn r s' = s.withCompact c := by
        rintro a ha _ ⟨c, rfl⟩
        simp only [List.cons_append, List.mem_cons, List.mem_append, List.mem_map,
          List.not_mem_nil, or_false] at ha
        rcases ha with rfl | rfl | ⟨r, -, rfl⟩ | rfl | rfl
        · exact ⟨⟨_, rfl⟩, fun _ => ⟨_, rfl⟩⟩
        · exact ⟨⟨_, rfl⟩, fun _ => ⟨_, rfl⟩⟩
        · exact ⟨⟨_, rfl⟩, fun _ => ⟨_, rfl⟩⟩
        · exact ⟨⟨_, rfl⟩, fun _ => ⟨_, rfl⟩⟩
        · exact ⟨⟨_, rfl⟩, fun _ => ⟨_, rfl⟩⟩
      refine (Ensures.attempts hkeep s).weaken ?_ ?_ ?_
      · rintro w hw
        exact ⟨hw, s.compact, rfl⟩
      · rintro _ w ⟨hw, -⟩
        rw [doneAll_aside] at hw
        exact hw
      · rintro w ⟨c, hc⟩
        rw [On, hc]
        exact haside c
    · -- the new file is in place from the rename on
      refine Ensures.attempts_cons (R := fun s' => s' = s.compacted l.retained) ?_ ?_ <|
        Ensures.attempts_cons (R := fun s' => s' = s.compacted l.retained) ?_ ?_ <|
        Ensures.attempts_cons (R := fun s' => s' = (s.compacted l.retained).reopen) ?_ ?_ <|
        Ensures.attempts_nil fun _ h => h
      · rintro _ rfl
        rfl
      · rintro _ _ rfl
        exact haside _
      · rintro _ rfl
        rfl
      · rintro _ _ rfl
        exact hkeeps
      · rintro _ rfl
        rfl
      · rintro _ _ rfl
        exact hkeeps
  · refine Ensures.update ?_
    rintro _ rfl
    rw [hresult]
    exact ⟨h.reopened hcover, hacked⟩

/-! ## Appending -/

/-- The file after an append wrote its bytes, or some of them. -/
theorem Clean.writeFile (h : s.Clean) (bytes : List UInt8) :
    (LedgerFiles.writeFile bytes s).file = some (logFile s.recovered ++ bytes) ∧
      (LedgerFiles.writeFile bytes s).cursor = (logFile s.recovered ++ bytes).length := by
  obtain ⟨hatt, hfile, hcur⟩ := h
  constructor
  · unfold LedgerFiles.writeFile
    dsimp only
    rw [if_pos hatt, hcur]
    conv_lhs => rw [hfile]
    rw [Option.map_some, overwrite_length]
  · unfold LedgerFiles.writeFile
    dsimp only
    rw [hcur, List.length_append]

/-- The record is in the file, and not yet in memory. -/
theorem Ready.written (h : s.Ready [] l) (hfit : r.Fits) :
    (LedgerFiles.writeFile r.encode s).Keeps [] ∧
      (LedgerFiles.writeFile r.encode s).Clean ∧
      (LedgerFiles.writeFile r.encode s).recovered = s.recovered ++ [r] := by
  obtain ⟨hfile, hcur⟩ := h.clean.writeFile r.encode
  rw [← logFile_concat] at hfile hcur
  have hfits : ∀ q ∈ s.recovered ++ [r], q.Fits := by
    intro q hq
    rcases List.mem_append.1 hq with hq | hq
    · exact (h.keeps.framed h.clean).fits q hq
    · rw [List.mem_singleton.1 hq]
      exact hfit
  have hrec := recovered_of_framed hfile (framed_logFile hfits)
  refine ⟨⟨fun bytes hb => ?_, ?_, h.keeps.memory, h.keeps.once⟩, ⟨h.clean.attached, ?_, ?_⟩, hrec⟩
  · rw [hfile] at hb
    cases hb
    exact Or.inr ⟨_, framed_logFile hfits⟩
  · rw [hrec]
    exact h.keeps.durable.trans (.of_subset (List.subset_append_left _ _))
  · rw [hrec, hfile]
  · rw [hrec, hcur]

/-- A torn append changes no record in the file. -/
theorem Ready.torn (h : s.Ready [] l) (hfit : r.Fits) (reached : Nat) :
    (LedgerFiles.writeFile (tornBytes r.encode reached) s).Keeps [] := by
  obtain ⟨hfile, -⟩ := h.clean.writeFile (tornBytes r.encode reached)
  have hframed := framed_torn (h.keeps.framed h.clean).fits hfit reached
  refine h.keeps.of_file rfl rfl rfl (fun bytes hb => ?_) (recovered_of_framed hfile hframed)
  rw [hfile] at hb
  cases hb
  exact Or.inr ⟨_, hframed⟩

/-- The record is in the file and in memory, and not yet acknowledged. -/
theorem Ready.pushed (h : s.Ready [] l) (hfit : r.Fits) :
    Ready [r] (setLedger (l.index r) (LedgerFiles.writeFile r.encode s)) (l.index r) := by
  obtain ⟨hkeeps, hclean, hrec⟩ := h.written hfit
  have hmemory := h.keeps.memory l h.ledger
  have hdurable := h.keeps.durable
  rw [List.append_nil] at hmemory hdurable
  refine ⟨⟨hkeeps.file, ?_, ?_, hkeeps.once⟩, rfl, hclean.attached, hclean.file, hclean.cursor⟩
  · change Covers (s.acked ++ [r]) (LedgerFiles.writeFile r.encode s).recovered
    rw [hrec]
    exact hdurable.concat r
  · rintro _ ⟨⟩
    refine ⟨hmemory.1.concat r, fun q hq => ?_⟩
    rcases List.mem_append.1 hq with hq | hq
    · exact hmemory.2 q hq
    · rw [List.mem_singleton.1 hq]
      exact hfit

theorem Ready.acknowledged (h : s.Ready [r] l) : Ready [] (acknowledge r s) l := by
  refine ⟨⟨h.keeps.file, ?_, fun l' hl' => ?_, h.keeps.once⟩, h.ledger, h.clean.attached,
    h.clean.file, h.clean.cursor⟩
  · rw [List.append_nil]
    exact h.keeps.durable
  · rw [List.append_nil]
    exact h.keeps.memory l' hl'

/-- **Append** behind whole records keeps every success, whether it fails or
not. -/
theorem ensures_append (l : RunLedger) (r : RunRecord) (A : List RunRecord) (hfit : r.Fits)
    (hstand : l.maxRuns ≠ 0 → (l.index r).outgrown = true → Covers A (l.index r).latestRecords) :
    Ensures (On fun s => s.Ready [] l ∧ s.acked = A) (append r)
      (fun _ => On fun s => s.Ready [] (l.append r) ∧ s.acked = A ++ [r]) (On (Keeps [])) := by
  refine Ensures.fix fun s ⟨hready, hacked⟩ => ?_
  unfold append
  refine Ensures.read ?_
  simp only [hready.ledger]
  refine Ensures.bind (R := fun _ => On fun s' => s' = writeFile r.encode s) ?_ fun _ => ?_
  · refine Ensures.attempts_cons (R := fun s' => s' = writeFile r.encode s) ?_ ?_ <|
      Ensures.attempts_cons (R := fun s' => s' = writeFile r.encode s) ?_ ?_ <|
      Ensures.attempts_nil fun _ h => h
    · rintro _ rfl
      rfl
    · rintro _ reached rfl
      exact hready.torn hfit reached
    · rintro _ rfl
      rfl
    · rintro _ _ rfl
      exact (hready.written hfit).1
  · refine Ensures.bind (R := fun _ => On fun s' => s'.Ready [r] (l.index r) ∧ s'.acked = A)
      (Ensures.update ?_) fun _ => ?_
    · rintro _ rfl
      exact ⟨hready.pushed hfit, hacked⟩
    · refine Ensures.bind
        (R := fun _ => On fun s' => s'.Ready [r] (l.append r) ∧ s'.acked = A) ?_ fun _ => ?_
      · refine (ensures_enforceRetention [r] (l.index r) A fun hmax hout => ?_).weaken
          (fun _ h => h) (fun _ _ h => h) fun _ h => h.weaken
        exact (hstand hmax hout).concat_mem RunLedger.mem_latestRecords_index
      · refine Ensures.update fun s' h => ⟨h.1.acknowledged, ?_⟩
        change s'.acked ++ [r] = A ++ [r]
        rw [h.2]

/-! ## Opening -/

/-- What a restart knows of the ledger while it goes over the unfinished
runs: the successes stand, and no run still to be recorded has one. -/
structure Restarting (A pending : List RunRecord) (l : RunLedger) : Prop where
  stand : l.maxRuns ≠ 0 → Covers A l.latestRecords
  pending : ∀ p ∈ pending, p.Fits ∧ p.state ≠ .succeeded ∧
    ∀ q, l.get p.id = some q → q.state ≠ .succeeded

theorem Restarting.stand_index {A pending : List RunRecord} {p : RunRecord}
    (h : Restarting A (p :: pending) l) (hmax : l.maxRuns ≠ 0) :
    Covers A (l.index p).latestRecords :=
  RunLedger.covers_latest_index (h.stand hmax) (h.pending p List.mem_cons_self).2.2

theorem Restarting.append {A pending : List RunRecord} {p : RunRecord}
    (h : Restarting A (p :: pending) l) : Restarting (A ++ [p]) pending (l.append p) := by
  obtain ⟨-, hstate, -⟩ := h.pending p List.mem_cons_self
  refine ⟨fun hmax => ?_, fun p' hp' => ?_⟩
  · have hmax' : l.maxRuns ≠ 0 := by
      rw [RunLedger.append, RunLedger.enforceRetention_maxRuns] at hmax
      exact hmax
    exact (Covers.of_concat hstate).trans
      (RunLedger.covers_latest_enforceRetention (h.stand_index hmax'))
  · obtain ⟨hfit, hne, hlatest⟩ := h.pending p' (List.mem_cons_of_mem p hp')
    refine ⟨hfit, hne, fun q hq => ?_⟩
    have hindex := RunLedger.get_of_enforceRetention hq
    rw [RunLedger.get_index] at hindex
    split_ifs at hindex with hid
    · cases hindex
      exact hstate
    · exact hlatest q hindex

theorem restarting_interruptedRuns {A : List RunRecord}
    (hstand : l.maxRuns ≠ 0 → Covers A l.latestRecords)
    (hfits : ∀ r ∈ l.records, r.Fits) : Restarting A l.interruptedRuns l := by
  refine ⟨hstand, fun p hp => ?_⟩
  obtain ⟨r, hr, hactive, rfl⟩ := RunLedger.mem_interruptedRuns.1 hp
  refine ⟨(hfits r (RunLedger.mem_records_of_get hr)).of_interrupted,
    r.interrupted_ne_succeeded, fun q hq => ?_⟩
  -- the latest record of the run is the unfinished one
  have hsame : some q = some r := hq.symm.trans hr
  cases hsame
  intro hsucc
  rw [hsucc] at hactive
  cases hactive

/-- The unfinished runs are recorded one after the other. -/
theorem ensures_forM_append (pending : List RunRecord) (l : RunLedger) (A : List RunRecord)
    (h : Restarting A pending l) :
    Ensures (On fun s => s.Ready [] l ∧ s.acked = A) (pending.forM append)
      (fun _ => On fun s => ∃ l', s.Ready [] l' ∧ Restarting s.acked [] l') (On (Keeps [])) := by
  induction pending generalizing l A with
  | nil =>
    refine Ensures.pure _ fun w hw => ⟨l, hw.1, ?_⟩
    rw [hw.2]
    exact h
  | cons p pending ih =>
    change Ensures _ (append p >>= fun _ => pending.forM append) _ _
    exact Ensures.bind (ensures_append l p A (h.pending p List.mem_cons_self).1
      fun hmax _ => h.stand_index hmax) fun _ => ih _ _ h.append

theorem ensures_recoverInterrupted (l : RunLedger) (A : List RunRecord)
    (hstand : l.maxRuns ≠ 0 → Covers A l.latestRecords) :
    Ensures (On fun s => s.Ready [] l ∧ s.acked = A) recoverInterrupted
      (fun _ => On fun s => ∃ l', s.Ready [] l' ∧ Restarting s.acked [] l') (On (Keeps [])) := by
  refine Ensures.fix fun s ⟨hready, hacked⟩ => ?_
  unfold recoverInterrupted
  refine Ensures.read ?_
  simp only [hready.ledger]
  refine (ensures_forM_append l.interruptedRuns l A
    (restarting_interruptedRuns hstand hready.fits)).weaken ?_ (fun _ _ h => h) fun _ h => h
  rintro w hw
  rw [On, show w.state = s from hw]
  exact ⟨hready, hacked⟩

/-- A ledger that is being opened on what a file was found to hold: the file
is still that one, or no success is relied on. -/
structure Opening (raw : Option (List UInt8)) (s : LedgerFiles) : Prop where
  keeps : s.Keeps []
  ledger : s.ledger = none
  found : ∀ x, raw.bind replay = some x → s.file = raw
  empty : raw.bind replay = none → Covers s.acked []

/-- The same, with the file open. -/
structure Opened (raw : Option (List UInt8)) (s : LedgerFiles) : Prop extends s.Opening raw where
  attached : s.attached = true
  exists_file : ∃ bytes, s.file = some bytes

/-- A ledger that was repaired: its file is these records. -/
structure Repaired (records : List RunRecord) (s : LedgerFiles) : Prop where
  keeps : s.Keeps []
  clean : s.Clean
  recovered : s.recovered = records

theorem ensures_openFile {raw : Option (List UInt8)} {A : List RunRecord} :
    Ensures (On fun s => s.Opening raw ∧ s.acked = A)
      (attempts LedgerError.io [op openFile, touch])
      (fun _ => On fun s => s.Opened raw ∧ s.acked = A) (On (Keeps [])) := by
  refine Ensures.attempts_cons (R := fun s => s.Opened raw ∧ s.acked = A) ?_
    (fun _ _ h => h.1.keeps) <|
    Ensures.attempts_cons (R := fun s => s.Opened raw ∧ s.acked = A) (fun _ h => h)
      (fun _ _ h => h.1.keeps) <|
    Ensures.attempts_nil fun _ h => h
  rintro s ⟨h, hacked⟩
  have hrec : (openFile s).recovered = s.recovered := by
    rcases hfile : s.file with _ | bytes
    · rw [recovered_of_none hfile]
      have hopen : (openFile s).file = some [] := by
        simp only [openFile, hfile, Option.getD_none]
      exact recovered_of_replay hopen replay_nil
    · simp only [recovered, openFile, hfile, Option.getD_some]
  refine ⟨⟨⟨h.keeps.of_file rfl rfl rfl (fun bytes hb => ?_) hrec, h.ledger, fun x hx => ?_, h.empty⟩,
    rfl, ⟨_, rfl⟩⟩, hacked⟩
  · cases hb
    rcases hfile : s.file with _ | bytes
    · exact Or.inl replay_nil
    · exact h.keeps.file bytes hfile
  · have hfile := h.found x hx
    rcases raw with _ | bytes
    · cases hx
    · change some (s.file.getD []) = some bytes
      rw [hfile, Option.getD_some]

/-- The file starts anew: it is emptied and gets its header. -/
theorem ensures_restart {raw : Option (List UInt8)} {A : List RunRecord}
    (hex : raw.bind replay = none) :
    Ensures (On fun s => s.Opened raw ∧ s.acked = A) (attempts LedgerError.io (repair none))
      (fun _ => On fun s => s.Repaired [] ∧ s.ledger = none ∧ s.acked = A) (On (Keeps [])) := by
  have hframed : Framed [] (logFile []) := framed_logFile fun r hr => by cases hr
  have hkeeps : ∀ {s s' : LedgerFiles}, s.Opened raw → s'.ledger = s.ledger → s'.acked = s.acked →
      s'.listed = s.listed → (∃ bytes, s'.file = some bytes ∧
        (replay bytes = none ∨ bytes = logFile [])) → s'.Keeps [] := by
    rintro s s' h hledger hacked hlisted ⟨bytes, hfile, hbytes⟩
    have hrec : s'.recovered = [] := by
      rcases hbytes with hnone | rfl
      · exact recovered_of_replay hfile hnone
      · exact recovered_of_framed hfile hframed
    refine ⟨fun b hb => ?_, ?_, fun l hl => ?_, ?_⟩
    · rw [hfile] at hb
      cases hb
      rcases hbytes with hnone | rfl
      · exact Or.inl hnone
      · exact Or.inr ⟨[], hframed⟩
    · rw [hrec, hacked, List.append_nil]
      exact h.empty hex
    · rw [hledger, h.ledger] at hl
      cases hl
    · unfold Once
      rw [hlisted]
      exact h.keeps.once
  refine Ensures.fix fun s ⟨h, hacked⟩ => ?_
  obtain ⟨bytes, hfile⟩ := h.exists_file
  have hcut : (setLen 0 s).file = some [] := by
    simp only [setLen, hfile, Option.map_some, resize_zero]
  have hwritten : ∀ bytes, (writeFile bytes (seekTo 0 (setLen 0 s))).file = some bytes := by
    intro bytes
    have hatt := h.attached
    simp only [writeFile, seekTo, setLen, hfile, hatt, if_true, Option.map_some, resize_zero]
    exact congrArg some (overwrite_length [] bytes)
  have hstart : (writeFile header (seekTo 0 (setLen 0 s))).Repaired [] := by
    have hheader : logFile [] = header := List.append_nil header
    have hrec : (writeFile header (seekTo 0 (setLen 0 s))).recovered = [] := by
      refine recovered_of_framed (hwritten header) ?_
      rw [← hheader]
      exact hframed
    refine ⟨hkeeps h rfl rfl rfl ⟨_, hwritten header, Or.inr hheader.symm⟩, ⟨h.attached, ?_, ?_⟩, hrec⟩
    · rw [hrec, hheader, hwritten header]
    · rw [hrec, hheader]
      exact Nat.zero_add _
  -- an emptied file and a torn header are both read as no log, so a fault loses nothing more
  refine Ensures.attempts_cons (R := fun s' => s' = setLen 0 s) ?_ ?_ <|
    Ensures.attempts_cons (R := fun s' => s' = seekTo 0 (setLen 0 s)) ?_ ?_ <|
    Ensures.attempts_cons
      (R := fun s' => s' = writeFile header (seekTo 0 (setLen 0 s))) ?_ ?_ <|
    Ensures.attempts_cons
      (R := fun s' => s' = writeFile header (seekTo 0 (setLen 0 s))) ?_ ?_ <|
    Ensures.attempts_nil ?_
  · rintro _ rfl
    rfl
  · rintro _ _ rfl
    exact h.keeps
  · rintro _ rfl
    rfl
  · rintro _ _ rfl
    exact hkeeps h rfl rfl rfl ⟨_, hcut, Or.inl replay_nil⟩
  · rintro _ rfl
    rfl
  · rintro _ reached rfl
    exact hkeeps h rfl rfl rfl ⟨_, hwritten _, Or.inl (replay_torn_header reached)⟩
  · rintro _ rfl
    rfl
  · rintro _ _ rfl
    exact hstart.keeps
  · rintro _ rfl
    exact ⟨hstart, h.ledger, hacked⟩

/-- The file is cut to its records. -/
theorem ensures_cut {raw : Option (List UInt8)} {A : List RunRecord} {goodLen : Nat}
    (hex : raw.bind replay = some (rs, goodLen)) :
    Ensures (On fun s => s.Opened raw ∧ s.acked = A)
      (attempts LedgerError.io (repair (some (rs, goodLen))))
      (fun _ => On fun s => s.Repaired rs ∧ s.ledger = none ∧ s.acked = A) (On (Keeps [])) := by
  refine Ensures.fix fun s ⟨h, hacked⟩ => ?_
  have hfile := h.found _ hex
  obtain ⟨bytes, rfl, hreplay⟩ := Option.bind_eq_some_iff.1 hex
  have hframed : Framed rs bytes ∧ goodLen = (logFile rs).length := by
    rcases h.keeps.file bytes hfile with hnone | ⟨rs', hframed⟩
    · cases hnone.symm.trans hreplay
    · have heq := hreplay.symm.trans hframed.replay
      simp only [Option.some.injEq, Prod.mk.injEq] at heq
      obtain ⟨rfl, rfl⟩ := heq
      exact ⟨hframed, rfl⟩
  obtain ⟨hframed, rfl⟩ := hframed
  -- behind the last whole record is a torn tail, and only that is cut
  have hcut : (setLen (logFile rs).length s).file = some (logFile rs) := by
    obtain ⟨tail, rfl, -⟩ := hframed.shape
    simp only [setLen, hfile, Option.map_some, resize_append]
  have hrec : (setLen (logFile rs).length s).recovered = rs :=
    recovered_of_framed hcut (framed_logFile hframed.fits)
  have hkeeps : (setLen (logFile rs).length s).Keeps [] := by
    refine h.keeps.of_file rfl rfl rfl (fun b hb => ?_) ?_
    · rw [hcut] at hb
      cases hb
      exact Or.inr ⟨rs, framed_logFile hframed.fits⟩
    · rw [hrec, recovered_of_framed hfile hframed]
  have hrec' : (seekTo (logFile rs).length (setLen (logFile rs).length s)).recovered = rs := hrec
  have hrepaired : (seekTo (logFile rs).length (setLen (logFile rs).length s)).Repaired rs := by
    refine ⟨hkeeps.of_eq rfl rfl rfl rfl, ⟨h.attached, ?_, ?_⟩, hrec⟩
    · rw [hrec']
      exact hcut
    · rw [hrec']
      rfl
  refine Ensures.attempts_cons (R := fun s' => s' = setLen (logFile rs).length s) ?_ ?_ <|
    Ensures.attempts_cons
      (R := fun s' => s' = seekTo (logFile rs).length (setLen (logFile rs).length s)) ?_ ?_ <|
    Ensures.attempts_nil ?_
  · rintro _ rfl
    rfl
  · rintro _ _ rfl
    exact h.keeps
  · rintro _ rfl
    rfl
  · rintro _ _ rfl
    exact hkeeps
  · rintro _ rfl
    exact ⟨hrepaired, h.ledger, hacked⟩

/-- The repaired ledger with its records in memory. -/
theorem Repaired.ready (h : s.Repaired records) (maxRuns : Nat) :
    Ready [] (setLedger (records.foldl RunLedger.index (RunLedger.empty maxRuns)) s)
      (records.foldl RunLedger.index (RunLedger.empty maxRuns)) := by
  refine ⟨⟨h.keeps.file, h.keeps.durable, ?_, h.keeps.once⟩, rfl, h.clean.attached, h.clean.file,
    h.clean.cursor⟩
  rintro _ ⟨⟩
  have hframed := h.keeps.framed h.clean
  rw [RunLedger.foldl_index_records]
  have hdurable := h.keeps.durable
  rw [h.recovered] at hdurable hframed
  exact ⟨hdurable, hframed.fits⟩

/-- **Open** on what the file holds keeps every success, whether it fails or
not. -/
theorem ensures_openOn (maxRuns : Nat) (raw : Option (List UInt8)) (A : List RunRecord)
    (hstand : maxRuns ≠ 0 → Covers A
      ((((raw.bind replay).map Prod.fst).getD []).foldl RunLedger.index
        (RunLedger.empty maxRuns)).latestRecords) :
    Ensures (On fun s => s.Opening raw ∧ s.acked = A) (openOn maxRuns raw) (fun _ => On (Keeps []))
      (On (Keeps [])) := by
  unfold openOn
  refine Ensures.bind ensures_openFile fun _ => ?_
  refine Ensures.bind (R := fun _ => On fun s =>
    s.Repaired (((raw.bind replay).map Prod.fst).getD []) ∧ s.ledger = none ∧ s.acked = A)
    ?_ fun _ => ?_
  · rcases hex : raw.bind replay with _ | ⟨rs, goodLen⟩
    · exact ensures_restart hex
    · exact ensures_cut hex
  generalize ((raw.bind replay).map Prod.fst).getD [] = records at hstand ⊢
  have hmax : (records.foldl RunLedger.index (RunLedger.empty maxRuns)).maxRuns = maxRuns :=
    RunLedger.foldl_index_maxRuns records
  refine Ensures.bind (R := fun _ => On fun s =>
    s.Ready [] (records.foldl RunLedger.index (RunLedger.empty maxRuns)) ∧ s.acked = A)
    (Ensures.update fun s h => ⟨h.1.ready maxRuns, h.2.2⟩) fun _ => ?_
  refine Ensures.bind (ensures_recoverInterrupted _ A fun h => hstand (hmax ▸ h)) fun _ => ?_
  refine Ensures.fix fun s ⟨l, hready, hrestart⟩ => ?_
  refine (ensures_enforceRetention [] l s.acked fun hne _ => ?_).weaken ?_
    (fun _ _ h => h.1.keeps) fun _ h => h
  · rw [List.append_nil]
    exact hrestart.stand hne
  · rintro w hw
    rw [On, show w.state = s from hw]
    exact ⟨hready, rfl⟩

theorem Keeps.opening (h : s.Keeps []) (hledger : s.ledger = none) : s.Opening s.file := by
  refine ⟨h, hledger, fun _ _ => rfl, fun hnone => ?_⟩
  have hdurable := h.durable
  rw [recovered, hnone, List.append_nil] at hdurable
  exact hdurable

theorem Keeps.opening_none (h : s.Keeps []) (hledger : s.ledger = none) (hnone : Covers s.acked []) :
    s.Opening none := by
  refine ⟨h, hledger, fun _ hx => ?_, fun _ => hnone⟩
  cases hx

theorem keeps_orClosed {m : LedgerM Unit} {P : Faulty LedgerFiles → Prop} {w : Faulty LedgerFiles}
    (h : Ensures P m (fun _ => On (Keeps [])) (On (Keeps []))) (hw : P w) : (orClosed m w).Keeps [] := by
  have hrun := h w hw
  unfold orClosed
  split at hrun
  · rename_i heq
    rw [heq]
    exact hrun
  · rename_i heq
    rw [heq]
    exact Keeps.closed hrun

/-- **Reopen** keeps every success when the file is found and no success is
dropped for the bound. -/
theorem keeps_reopen (h : s.Keeps []) (hledger : s.ledger = none) (maxRuns : Nat)
    {plan : List (Option Nat)}
    (hfound : plan[0]?.join = none → plan[1]?.join ≠ none → Covers s.acked [])
    (hstand : maxRuns ≠ 0 →
      Covers s.acked (s.recovered.foldl RunLedger.index (RunLedger.empty maxRuns)).latestRecords) :
    (orClosed (openWithPolicy maxRuns) ⟨s, plan⟩).Keeps [] := by
  refine keeps_orClosed (P := fun w => w = ⟨s, plan⟩) ?_ rfl
  unfold openWithPolicy
  refine Ensures.bind (R := fun _ w => w.state = s ∧ plan[0]?.join = none ∧ w.plan = plan.tail)
    ?_ fun _ => ?_
  · rintro _ rfl
    unfold attempt
    rw [List.head?_eq_getElem?]
    rcases hplan : plan[0]?.join with _ | reached
    · exact ⟨rfl, rfl, rfl⟩
    · exact h
  · -- a file that is not found holds no success
    refine Ensures.bind
      (R := fun found w => w.state = s ∧ (found = false → Covers s.acked [])) ?_ fun found => ?_
    · rintro w ⟨hstate, hfirst, hplan⟩
      unfold probe attempt
      rw [hplan, List.head?_eq_getElem?, List.getElem?_tail]
      rcases hnext : plan[0 + 1]?.join with _ | reached
      · refine ⟨hstate, fun hfalse => ?_⟩
        cases hfalse
      · refine ⟨hstate, fun _ => hfound hfirst ?_⟩
        rw [show plan[1]?.join = some reached from hnext]
        exact fun hnone => by cases hnone
    · intro w hw
      obtain ⟨hstate, hempty⟩ := hw
      refine Ensures.read (s := s) ?_ w hstate
      -- whatever the first two operations did, the rest is an opening on what was read
      have hopen : ∀ raw, s.Opening raw → (maxRuns ≠ 0 → Covers s.acked
          ((((raw.bind replay).map Prod.fst).getD []).foldl RunLedger.index
            (RunLedger.empty maxRuns)).latestRecords) →
          Ensures (On fun s' => s' = s) (openOn maxRuns raw) (fun _ => On (Keeps []))
            (On (Keeps [])) := by
        intro raw hraw hcover
        refine (ensures_openOn maxRuns raw s.acked hcover).weaken ?_ (fun _ _ h => h) fun _ h => h
        rintro w' hw'
        rw [On, show w'.state = s from hw']
        exact ⟨hraw, rfl⟩
      split
      · refine Ensures.bind (R := fun _ => On fun s' => s' = s)
          (Ensures.attempt (fun _ h => h) ?_) fun _ => hopen _ (h.opening hledger) hstand
        rintro _ _ rfl
        exact h
      · rename_i hnot
        have hnone : Covers s.acked [] := by
          rcases hfile : s.file with _ | bytes
          · have hdurable := h.durable
            rw [recovered_of_none hfile, List.append_nil] at hdurable
            exact hdurable
          · refine hempty ?_
            rw [not_and_or, hfile] at hnot
            simpa using hnot
        exact hopen none (h.opening_none hledger hnone) fun _ => hnone.trans (.of_subset
          (List.nil_subset _))

/-! ## Runs -/

/-- **What is due** is later than every success that is in memory. -/
theorem lt_of_due {jobs : List (String × Job)} {now : Nat} {f : Firing}
    (hcond : ∀ j ∈ jobs, ∀ last ∈ l.lastSucceededFire j.1 j.2.name,
      now ≤ last → last < j.2.trigger.nextDue (some last))
    (hf : f ∈ dueFirings jobs l now) (hr : r ∈ l.records)
    (hsucc : r.succeededFor f.cube f.job = true) : r.fireMillis < f.fireMillis := by
  obtain ⟨d, hd, rfl⟩ := List.mem_map.1 hf
  rw [List.mem_insertionSort, List.mem_filterMap] at hd
  obtain ⟨j, hj, hd⟩ := hd
  have hjob := (List.mem_filter.1 hj).1
  dsimp only at hd
  split_ifs at hd with hdue
  cases hd
  have hmem : r.fireMillis ∈
      (l.records.filter (RunRecord.succeededFor j.1 j.2.name)).map RunRecord.fireMillis :=
    List.mem_map_of_mem (List.mem_filter.2 ⟨hr, hsucc⟩)
  have hlast : ∃ last, l.lastSucceededFire j.1 j.2.name = some last ∧ r.fireMillis ≤ last := by
    unfold RunLedger.lastSucceededFire
    rcases hmax : ((l.records.filter (RunRecord.succeededFor j.1 j.2.name)).map
        RunRecord.fireMillis).max? with _ | last
    · rw [List.max?_eq_none_iff] at hmax
      rw [hmax] at hmem
      cases hmem
    · exact ⟨last, rfl, (List.max?_eq_some_iff.1 hmax).2 _ hmem⟩
  obtain ⟨last, hlast, hle⟩ := hlast
  rw [hlast] at hdue
  by_contra hnot
  have hnow : now ≤ last := (Nat.le_of_not_lt hnot).trans hle
  have hlt := hcond j hjob last hlast hnow
  omega

/-- **Step.** -/
theorem Keeps.step (h : s.Keeps []) {a : LedgerStep} (hsafe : s.Safe a) (hstep : s.step a = .ok s') :
    s'.Keeps [] := by
  cases a with
  | append r plan =>
    cases hstep
    simp only [Safe] at hsafe
    rcases hledger : s.ledger with _ | l
    · have hrun : Ensures (On fun s' => s' = s) (append r) (fun _ => On (Keeps []))
          (On (Keeps [])) := by
        unfold append
        refine Ensures.read ?_
        simp only [hledger]
        refine Ensures.throw _ ?_
        rintro _ rfl
        exact h
      exact Ensures.finalState (E := On (Keeps [])) hrun rfl
    · rw [hledger] at hsafe
      obtain ⟨hclean, hfit, hstand⟩ := hsafe
      have hrun : Ensures (On fun s' => s'.Ready [] l ∧ s'.acked = s.acked) (append r)
          (fun _ => On (Keeps [])) (On (Keeps [])) :=
        (ensures_append l r s.acked hfit hstand).weaken (fun _ h => h) (fun _ _ h => h.1.keeps)
          fun _ h => h
      exact Ensures.finalState (E := On (Keeps [])) hrun ⟨⟨h, hledger, hclean⟩, rfl⟩
  | due jobs now =>
    simp only [LedgerFiles.step] at hstep
    simp only [Safe] at hsafe
    rcases hledger : s.ledger with _ | l
    · rw [hledger] at hstep
      cases hstep
      exact h
    · rw [hledger] at hstep hsafe
      cases hstep
      refine ⟨h.file, h.durable, fun l' hl' => h.memory l' (hledger.trans hl'),
        fun e he => ?_⟩
      rcases List.mem_append.1 he with he | he
      · exact h.once e he
      · obtain ⟨f, hf, rfl⟩ := List.mem_map.1 he
        intro r hr hsucc
        -- a success is covered by one that is listed, and what is due fires after that one
        have hcover := (h.memory l hledger).1
        rw [List.append_nil] at hcover
        obtain ⟨p, hp, hps, hle⟩ := hcover.exists_mem hr hsucc
        exact hle.trans_lt (lt_of_due hsafe hf hp hps)
  | crash =>
    cases hstep
    exact h.closed
  | reopen maxRuns plan =>
    cases hstep
    exact keeps_reopen h.closed rfl maxRuns hsafe.1 hsafe.2

/-- **A recorded success is not run again**, in a run that appends behind
whole records and drops no success for a bound. -/
theorem once_of_run {steps pre : List LedgerStep} (h : Meets step Safe fresh steps)
    (hpre : pre <+: steps) : (runCalls step fresh pre).Once :=
  (run_invariant (fun _ _ _ hI hcond hstep => Keeps.step hI hcond hstep) keeps_fresh
    (h.of_prefix hpre)).once

/-- A run of the nightly job in a state. -/
def nightlyRun (state : RunState) : RunRecord :=
  ⟨"sched::nightly:5", "", "nightly", true, 5, state, 0, 0, 0, "", "scheduler"⟩

def nightlyJobs : List (String × Job) := [("", ⟨"nightly", ["load"], .interval 10, true⟩)]

/-- A run is recorded, with a failed append that the next opening repairs;
after another restart the job is not due before its interval is over. -/
def repairedRuns : List LedgerStep :=
  [.reopen 1 [], .append (nightlyRun .running) [some 3], .crash, .reopen 1 [],
    .append (nightlyRun .succeeded) [], .crash, .reopen 1 [], .due nightlyJobs 5]

theorem once_of_repairedRuns : (runCalls step fresh repairedRuns).Once :=
  once_of_run (show Meets step Safe fresh repairedRuns by decide +kernel) (List.prefix_refl _)

/-- An append leaves three bytes of its frame; the success after it is
acknowledged; and after a restart the scheduler asks what is due. -/
def tornRuns : List LedgerStep :=
  [.reopen 0 [], .append (nightlyRun .queued) [some 3], .append (nightlyRun .succeeded) [],
    .crash, .reopen 0 [], .due nightlyJobs 5]

/-- **A torn frame hides the success behind it**, and the job is due again at
the time it succeeded at. -/
theorem not_once_tornRuns : ¬ ∀ pre, pre <+: tornRuns → (runCalls step fresh pre).Once := by
  intro h
  have honce := h tornRuns List.prefix_rfl
  have hlisted : (runCalls step fresh tornRuns).listed =
      [(⟨"", "nightly", 5, "sched::nightly:5", false⟩, [nightlyRun .succeeded])] := by
    decide +kernel
  unfold Once at honce
  rw [hlisted] at honce
  revert honce
  decide

end LedgerFiles

end Epiphany

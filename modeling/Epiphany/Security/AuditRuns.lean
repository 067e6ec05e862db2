import Epiphany.Common.Runs
import Epiphany.Security.Audit
/-!
# The audit log — what is never lost

An event that is acknowledged is in the file, until a compaction drops it as
one of the oldest, and no number is given twice. For this the open log has
to be in step with its file: a failed append leaves bytes behind that the
next one does not take back, and a failed compaction leaves a handle on a
file that is not there any more. In runs that append only to a log in step,
nothing is lost (`Audit.lossless_of_run`).
-/

namespace Epiphany

namespace Audit

open Fallible Files

variable {s s' : Audit} {l : AuditLog} {r : AuditRecord} {rs records : List AuditRecord}
  {bytes tail : List UInt8}

/-! ## The file -/

/-- The file of some events. -/
def logFile (records : List AuditRecord) : List UInt8 := header ++ records.flatMap AuditRecord.encode

theorem logFile_concat (records : List AuditRecord) (r : AuditRecord) :
    logFile (records ++ [r]) = logFile records ++ r.encode := by
  simp [logFile]

/-- A file of events, with something behind them that is no event. -/
structure Framed (records : List AuditRecord) (bytes : List UInt8) : Prop where
  fits : ∀ r ∈ records, r.Fits
  shape : ∃ tail, bytes = logFile records ++ tail ∧
    Framing.frameAt AuditRecord.decode tail = none

theorem replay_logFile (hfit : ∀ r ∈ records, r.Fits)
    (htail : Framing.frameAt AuditRecord.decode tail = none) :
    replay (logFile records ++ tail) = some (records, (logFile records).length) := by
  have hheader : header.length = headerLen := rfl
  have htake : (logFile records ++ tail).take headerLen = header := by
    rw [logFile, List.append_assoc, ← hheader, List.take_left]
  have hdrop : (logFile records ++ tail).drop headerLen =
      records.flatMap AuditRecord.encode ++ tail := by
    rw [logFile, List.append_assoc, ← hheader, List.drop_left]
  have hlong : ¬ (logFile records ++ tail).length < headerLen := by
    rw [logFile, List.length_append, List.length_append, hheader]
    omega
  have hread := Framing.readFrames_append AuditRecord.payload
    (fun r hr => ⟨(hfit r hr).length, AuditRecord.decode_payload (hfit r hr)⟩) htail
    (n := (logFile records ++ tail).length) (by
      have hle := Framing.length_le_length_flatMap AuditRecord.payload records
      have hsame : (records.flatMap fun r => Wal.frame r.payload) =
          records.flatMap AuditRecord.encode := rfl
      rw [hsame] at hle
      rw [logFile, List.length_append, List.length_append]
      omega)
  have hsame : (records.flatMap fun r => Wal.frame r.payload) =
      records.flatMap AuditRecord.encode := rfl
  rw [hsame] at hread
  rw [replay, if_neg (not_or.2 ⟨hlong, fun h => h htake⟩), hdrop, hread]
  simp only [logFile, List.length_append, hheader]

theorem Framed.replay (h : Framed records bytes) :
    replay bytes = some (records, (logFile records).length) := by
  obtain ⟨tail, rfl, htail⟩ := h.shape
  exact replay_logFile h.fits htail

theorem framed_logFile (hfit : ∀ r ∈ records, r.Fits) : Framed records (logFile records) :=
  ⟨hfit, [], (List.append_nil _).symm, rfl⟩

/-- A torn append leaves no event behind. -/
theorem framed_torn (hfit : ∀ r ∈ records, r.Fits) (hr : r.Fits) (reached : Nat) :
    Framed records (logFile records ++ tornBytes r.encode reached) := by
  refine ⟨hfit, _, rfl, Framing.frameAt_take hr.length ?_⟩
  rw [Framing.length_frame, AuditRecord.encode, Framing.length_frame]
  omega

/-- A torn header is not a header. -/
theorem replay_torn_header (reached : Nat) : replay (tornBytes header reached) = none := by
  have hlen : (tornBytes header reached).length < headerLen := by
    have hheader : header.length = headerLen := rfl
    rw [tornBytes, List.length_take, hheader, headerLen]
    omega
  rw [replay, if_pos (Or.inl hlen)]

theorem replay_nil : replay [] = none := rfl

theorem recovered_of_framed (hfile : s.file = some bytes) (h : Framed records bytes) :
    s.recovered = records := by
  rw [recovered, hfile, Option.bind_some, h.replay]
  rfl

theorem recovered_of_replay (hfile : s.file = some bytes) (h : replay bytes = none) :
    s.recovered = [] := by
  rw [recovered, hfile, Option.bind_some, h]
  rfl

theorem recovered_of_none (hfile : s.file = none) : s.recovered = [] := by
  rw [recovered, hfile]
  rfl

/-! ## What a run keeps -/

/-- Older by its number or by its time. -/
def Older (e r : AuditRecord) : Prop :=
  e.seq < r.seq ∨ e.event.timestampMillis < r.event.timestampMillis

/-- Nothing is lost and no number repeats: the events in memory and those a
reopen recovers are numbered in order; events that were ever in memory, or
are recovered, have numbers of their own; and an acknowledged event is
recovered, or was dropped as older than everything retained. -/
structure Lossless (s : Audit) : Prop where
  memory : ∀ l, s.log = some l → l.records.Pairwise fun e r => e.seq < r.seq
  recovered : s.recovered.Pairwise fun e r => e.seq < r.seq
  numbers : ∀ e ∈ s.seen ++ s.recovered, ∀ e' ∈ s.seen ++ s.recovered, e.seq = e'.seq → e = e'
  kept : ∀ e ∈ s.acked, e ∈ s.recovered ∨
    ∃ kept, (e, kept) ∈ s.dropped ∧ ∀ r ∈ kept, Older e r

/-- The open log is in step with its file: the handle is at the end of the
file at the path, and that holds the events in memory and nothing else. -/
structure InStep (s : Audit) (records : List AuditRecord) : Prop where
  attached : s.attached = true
  file : s.file = some (logFile records)
  cursor : s.cursor = (logFile records).length

instance (s : Audit) (records : List AuditRecord) : Decidable (s.InStep records) :=
  decidable_of_iff
    (s.attached = true ∧ s.file = some (logFile records) ∧ s.cursor = (logFile records).length)
    ⟨fun h => ⟨h.1, h.2.1, h.2.2⟩, fun h => ⟨h.attached, h.file, h.cursor⟩⟩

/-- An event is appended to a log in step, and fits the format; and a log
with events is not taken for missing when it is opened. -/
def Safe (s : Audit) : AuditStep → Prop
  | .append event _ =>
    match s.log with
    | some l => s.InStep l.records ∧ (AuditRecord.mk l.nextSeq event).Fits
    | none => True
  | .crash => True
  | .reopen _ plan =>
    plan[0]?.join = none → plan[1]?.join ≠ none → s.recovered = []

instance (s : Audit) (a : AuditStep) : Decidable (s.Safe a) := by
  unfold Safe
  split
  · split
    · infer_instance
    · infer_instance
  · infer_instance
  · infer_instance

/-- What is known of the events, given those in the file. -/
structure Accounts (rs : List AuditRecord) (s : Audit) : Prop where
  increasing : rs.Pairwise fun e r => e.seq < r.seq
  /-- The newest event that was ever in memory is in the file. -/
  covered : ∀ e ∈ s.seen, e ∈ rs ∨ ∃ r ∈ rs, e.seq < r.seq
  numbers : ∀ e ∈ s.seen ++ rs, ∀ e' ∈ s.seen ++ rs, e.seq = e'.seq → e = e'
  acked : ∀ e ∈ s.acked, e ∈ rs ∨ ∃ kept, (e, kept) ∈ s.dropped
  older : ∀ d ∈ s.dropped, ∀ r ∈ d.2, Older d.1 r
  memory : ∀ l, s.log = some l → (l.records.Pairwise fun e r => e.seq < r.seq) ∧
    ∀ e ∈ l.records, e ∈ s.seen ∧ e.Fits ∧ e.seq < l.nextSeq

/-- The file can be read, or is as good as none, and the events are
accounted for. -/
structure Sound (s : Audit) : Prop where
  file : ∀ bytes, s.file = some bytes → replay bytes = none ∨ ∃ rs, Framed rs bytes
  accounts : Accounts s.recovered s

theorem sound_fresh : fresh.Sound := by
  have hrec : fresh.recovered = [] := rfl
  refine ⟨fun bytes h => ?_, ?_⟩
  · cases h
  · rw [hrec]
    refine ⟨List.Pairwise.nil, fun e he => ?_, fun e he => ?_, fun e he => ?_, fun d hd => ?_,
      fun l hl => ?_⟩
    · cases he
    · cases he
    · cases he
    · cases hd
    · cases hl

theorem Sound.lossless (h : s.Sound) : s.Lossless := by
  obtain ⟨-, hinc, -, hnum, hacked, holder, hmem⟩ := h
  refine ⟨fun l hl => (hmem l hl).1, hinc, hnum, fun e he => ?_⟩
  exact (hacked e he).imp_right fun ⟨kept, hkept⟩ => ⟨kept, hkept, holder _ hkept⟩

/-- A change of the files that the events in the file survive. -/
theorem Sound.of_file (h : s.Sound) (hlog : s'.log = s.log) (hacked : s'.acked = s.acked)
    (hseen : s'.seen = s.seen) (hdropped : s'.dropped = s.dropped)
    (hfile : ∀ bytes, s'.file = some bytes → replay bytes = none ∨ ∃ rs, Framed rs bytes)
    (hrec : s'.recovered = s.recovered) : s'.Sound := by
  obtain ⟨hinc, hcov, hnum, hack, holder, hmem⟩ := h.accounts
  refine ⟨hfile, ?_⟩
  rw [hrec]
  exact ⟨hinc, hseen ▸ hcov, hseen ▸ hnum, hacked ▸ hdropped ▸ hack, hdropped ▸ holder,
    hlog ▸ hseen ▸ hmem⟩

/-- A change of nothing but handles and other files. -/
theorem Sound.of_eq (h : s.Sound) (hlog : s'.log = s.log) (hacked : s'.acked = s.acked)
    (hseen : s'.seen = s.seen) (hdropped : s'.dropped = s.dropped) (hfile : s'.file = s.file) :
    s'.Sound :=
  h.of_file hlog hacked hseen hdropped (hfile ▸ h.file) (by rw [recovered, hfile]; rfl)

/-- A log that is closed needs no account. -/
theorem Sound.closed (h : s.Sound) : ({ s with log := none } : Audit).Sound := by
  obtain ⟨hinc, hcov, hnum, hack, holder, -⟩ := h.accounts
  exact ⟨h.file, hinc, hcov, hnum, hack, holder, (fun l hl => by cases hl)⟩

end Audit

/-! ## Retention -/

namespace AuditLog

variable {l : AuditLog} {kept : List AuditRecord} {e r : AuditRecord}

/-- What is retained is the end of the events, without those too old. -/
theorem retained_eq (h : l.retained = some kept) :
    ∃ start cut, (start = 0 ∨ start < l.records.length ∨ l.records = []) ∧
      (∀ e, l.records.getLast? = some e → cut ≤ e.event.timestampMillis) ∧
      kept = (l.records.drop start).filter fun r => cut ≤ r.event.timestampMillis := by
  have hkept : l.newest = kept := by
    unfold retained at h
    split at h
    · cases h
    · exact Option.some.inj h
  have hstart : l.start = 0 ∨ l.start < l.records.length ∨ l.records = [] := by
    unfold start
    split
    · exact Or.inl rfl
    · rcases l.records.eq_nil_or_concat with hnil | ⟨init, last, hrec⟩
      · exact Or.inr (Or.inr hnil)
      · have hpos : 0 < l.records.length := by simp [hrec]
        exact Or.inr (Or.inl (by omega))
  unfold newest at hkept
  split at hkept
  · rename_i cut hcut
    refine ⟨l.start, cut, hstart, fun e he => ?_, hkept.symm⟩
    simp only [ageCut, he, Option.bind_eq_bind, Option.bind_eq_some_iff, Option.some.injEq] at hcut
    obtain ⟨age, -, newest, rfl, rfl⟩ := hcut
    exact Nat.sub_le _ _
  · refine ⟨l.start, 0, hstart, fun e _ => Nat.zero_le _, ?_⟩
    rw [← hkept]
    exact (List.filter_eq_self.2 fun r _ => decide_eq_true (Nat.zero_le _)).symm

theorem retained_sublist (h : l.retained = some kept) : kept.Sublist l.records := by
  obtain ⟨start, cut, -, -, rfl⟩ := retained_eq h
  exact List.filter_sublist.trans (List.drop_sublist _ _)

/-- The newest event is retained. -/
theorem newest_mem_retained (h : l.retained = some kept) (he : l.records.getLast? = some e) :
    e ∈ kept := by
  obtain ⟨start, cut, hstart, hcut, rfl⟩ := retained_eq h
  refine List.mem_filter.2 ⟨?_, decide_eq_true (hcut e he)⟩
  have hlen : start < l.records.length := by
    rcases hstart with rfl | hlt | hnil
    · exact List.length_pos_iff.2 fun hnil => by simp [hnil] at he
    · exact hlt
    · simp [hnil] at he
  rw [List.mem_iff_getElem?]
  refine ⟨l.records.length - 1 - start, ?_⟩
  rw [List.getLast?_eq_getElem?] at he
  rw [List.getElem?_drop, ← he]
  congr 1
  omega

/-- What is dropped is older than what is retained. -/
theorem older_of_not_mem_retained (h : l.retained = some kept)
    (hinc : l.records.Pairwise fun e r => e.seq < r.seq) (he : e ∈ l.records) (hne : e ∉ kept)
    (hr : r ∈ kept) : Audit.Older e r := by
  obtain ⟨start, cut, -, -, rfl⟩ := retained_eq h
  obtain ⟨hrdrop, hrcut⟩ := List.mem_filter.1 hr
  rw [decide_eq_true_eq] at hrcut
  rw [← List.take_append_drop start l.records] at he hinc
  rcases List.mem_append.1 he with he | he
  · exact Or.inl ((List.pairwise_append.1 hinc).2.2 e he r hrdrop)
  · rw [List.mem_filter, not_and, decide_eq_true_eq] at hne
    exact Or.inr ((Nat.lt_of_not_le (hne he)).trans_le hrcut)

end AuditLog

namespace Audit

open Fallible Files

variable {s s' : Audit} {l : AuditLog} {r : AuditRecord} {kept records : List AuditRecord}
  {bytes : List UInt8}

theorem InStep.recovered (h : s.InStep records) (hfit : ∀ r ∈ records, r.Fits) :
    s.recovered = records :=
  recovered_of_framed h.file (framed_logFile hfit)

/-- The files while a compaction writes the retained events aside. -/
def withCompact (s : Audit) (content : Option (List UInt8)) : Audit := { s with compact := content }

theorem doneAll_writeCompact (kept : List AuditRecord) (c : List UInt8) :
    doneAll (kept.map fun r => writeCompact r.encode) (s.withCompact (some c)) =
      s.withCompact (some (c ++ kept.flatMap AuditRecord.encode)) := by
  induction kept generalizing c with
  | nil => simp [doneAll]
  | cons r kept ih =>
    rw [List.map_cons, List.flatMap_cons, ← List.append_assoc, ← ih]
    rfl

/-- The retained events have been written aside. -/
theorem doneAll_aside (kept : List AuditRecord) :
    doneAll (op (setCompact fun _ => []) :: writeCompact header ::
        (kept.map fun r => writeCompact r.encode) ++ [touch, touch]) s =
      s.withCompact (some (logFile kept)) := by
  rw [doneAll_append]
  exact doneAll_writeCompact kept header

/-- In increasing events the last one is the greatest. -/
theorem exists_newest (hinc : records.Pairwise fun e r => e.seq < r.seq) (hr : r ∈ records) :
    ∃ newest, records.getLast? = some newest ∧ (r = newest ∨ r.seq < newest.seq) := by
  rcases records.eq_nil_or_concat with rfl | ⟨init, newest, rfl⟩
  · cases hr
  · rw [List.concat_eq_append] at hinc hr ⊢
    refine ⟨newest, List.getLast?_concat, ?_⟩
    rcases List.mem_append.1 hr with hr | hr
    · exact Or.inr ((List.pairwise_append.1 hinc).2.2 r hr newest (List.mem_singleton_self _))
    · exact Or.inl (List.mem_singleton.1 hr)

/-- The files after the compacted log took the place of the log. -/
def compacted (s : Audit) (kept : List AuditRecord) : Audit :=
  renameCompact kept (s.withCompact (some (logFile kept)))

/-- **Compaction** accounts for every event: it is retained or dropped. -/
theorem Sound.compacted (h : s.Sound) (hlog : s.log = some l) (hstep : s.InStep l.records)
    (hret : l.retained = some kept) : (s.compacted kept).Sound ∧
      ∀ e ∈ l.records, e ∈ kept ∨ (e, kept) ∈ (s.compacted kept).dropped := by
  obtain ⟨hinc, hmem⟩ := h.accounts.memory l hlog
  have hsub := AuditLog.retained_sublist hret
  have hfit : ∀ r ∈ kept, r.Fits := fun r hr => (hmem r (hsub.subset hr)).2.1
  have hrec : s.recovered = l.records := hstep.recovered fun r hr => (hmem r hr).2.1
  have hrec' : (s.compacted kept).recovered = kept :=
    recovered_of_framed rfl (framed_logFile hfit)
  have hdropped : (s.compacted kept).dropped = s.dropped ++
      l.records.filterMap fun r => if r ∈ kept then none else some (r, kept) := by
    show s.dropped ++ ((s.log.map AuditLog.records).getD []).filterMap _ = _
    rw [hlog]
    rfl
  have hall : ∀ e ∈ l.records, e ∈ kept ∨ (e, kept) ∈ (s.compacted kept).dropped := by
    intro e he
    -- what compaction leaves out is recorded as dropped, beside what it kept
    by_cases hk : e ∈ kept
    · exact Or.inl hk
    · rw [hdropped]
      exact Or.inr (List.mem_append_right _ (List.mem_filterMap.2 ⟨e, he, if_neg hk⟩))
  obtain ⟨-, hcov, hnum, hack, holder, hmemory⟩ := h.accounts
  rw [hrec] at hcov hnum hack
  refine ⟨⟨fun bytes hb => ?_, ?_⟩, hall⟩
  · obtain rfl : logFile kept = bytes := Option.some.inj hb
    exact Or.inr ⟨kept, framed_logFile hfit⟩
  · rw [hrec']
    refine ⟨hinc.sublist hsub, fun e he => ?_, fun e he e' he' => ?_, fun e he => ?_,
      fun d hd => ?_, hmemory⟩
    · -- the newest event is retained
      have hnewest : ∃ r ∈ l.records, e = r ∨ e.seq < r.seq := by
        rcases hcov e he with hmem | ⟨r, hr, hlt⟩
        · exact ⟨e, hmem, Or.inl rfl⟩
        · exact ⟨r, hr, Or.inr hlt⟩
      obtain ⟨r, hr, hle⟩ := hnewest
      obtain ⟨newest, hlast, hrn⟩ := exists_newest hinc hr
      have hin := AuditLog.newest_mem_retained hret hlast
      rcases hle with rfl | hlt
      · rcases hrn with rfl | hlt
        · exact Or.inl hin
        · exact Or.inr ⟨newest, hin, hlt⟩
      · rcases hrn with rfl | hlt'
        · exact Or.inr ⟨r, hin, hlt⟩
        · exact Or.inr ⟨newest, hin, hlt.trans hlt'⟩
    · have hin : ∀ {x}, x ∈ s.seen ++ kept → x ∈ s.seen ++ l.records := by
        intro x hx
        rcases List.mem_append.1 hx with hx | hx
        · exact List.mem_append_left _ hx
        · exact List.mem_append_right _ (hsub.subset hx)
      exact hnum e (hin he) e' (hin he')
    · rcases hack e he with hmem | ⟨kept', hd⟩
      · exact (hall e hmem).imp_right fun hd => ⟨kept, hd⟩
      · refine Or.inr ⟨kept', ?_⟩
        rw [hdropped]
        exact List.mem_append_left _ hd
    · rw [hdropped] at hd
      rcases List.mem_append.1 hd with hd | hd
      · exact holder d hd
      · obtain ⟨e, he, heq⟩ := List.mem_filterMap.1 hd
        split at heq
        · cases heq
        · rename_i hne
          obtain rfl := Option.some.inj heq
          intro r hr
          exact AuditLog.older_of_not_mem_retained hret hinc he hne hr

/-- What holds after the bound of a log was enforced: the log is in step with
its file, and its events were retained or dropped. -/
structure Enforced (before : List AuditRecord) (s : Audit) : Prop where
  sound : s.Sound
  inStep : ∃ l, s.log = some l ∧ s.InStep l.records
  kept : ∀ e ∈ before, e ∈ s.recovered ∨ ∃ kept, (e, kept) ∈ s.dropped

/-- **Retention** leaves a log in step, or fails with nothing lost. -/
theorem ensures_enforceRetention (l : AuditLog) :
    Ensures (On fun s => s.Sound ∧ s.log = some l ∧ s.InStep l.records) enforceRetention
      (fun _ => On (Enforced l.records)) (On Sound) := by
  refine Ensures.fix fun s ⟨hs, hlog, hstep⟩ => ?_
  have hfit : ∀ r ∈ l.records, r.Fits := fun r hr => ((hs.accounts.memory l hlog).2 r hr).2.1
  unfold enforceRetention
  refine Ensures.read ?_
  simp only [hlog]
  -- without a bound that is passed the log stays; else it is compacted to a file aside
  rcases hret : l.retained with _ | kept
  · refine Ensures.pure () ?_
    rintro w rfl
    exact ⟨hs, ⟨l, hlog, hstep⟩, fun e he => Or.inl (by rw [hstep.recovered hfit]; exact he)⟩
  · obtain ⟨hsound, hall⟩ := hs.compacted hlog hstep hret
    have hkept : ∀ r ∈ kept, r.Fits :=
      fun r hr => hfit r ((AuditLog.retained_sublist hret).subset hr)
    have haside : ∀ c, (s.withCompact c).Sound := fun c => hs.of_eq rfl rfl rfl rfl rfl
    simp only
    refine Ensures.bind (R := fun _ => On fun s' => s' = (s.compacted kept).reopen) ?_ fun _ => ?_
    · rw [rewriteFile, attempts_append]
      refine Ensures.bind (R := fun _ => On fun s' => s' = s.withCompact (some (logFile kept)))
        ?_ fun _ => ?_
      · have hkeep : ∀ a ∈ op (setCompact fun _ => []) :: writeCompact header ::
            (kept.map fun r => writeCompact r.encode) ++ [touch, touch],
            ∀ s', (∃ c, s' = s.withCompact c) → (∃ c, a.done s' = s.withCompact c) ∧
              ∀ r, ∃ c, a.torn r s' = s.withCompact c := by
          rintro a ha _ ⟨c, rfl⟩
          simp only [List.cons_append, List.mem_cons, List.mem_append, List.mem_map,
            List.not_mem_nil, or_false] at ha
          rcases ha with rfl | rfl | ⟨r, -, rfl⟩ | rfl | rfl
          · exact ⟨⟨_, rfl⟩, fun _ => ⟨_, rfl⟩⟩
          · exact ⟨⟨_, rfl⟩, fun _ => ⟨_, rfl⟩⟩
          · exact ⟨⟨_, rfl⟩, fun _ => ⟨_, rfl⟩⟩
          · exact ⟨⟨_, rfl⟩, fun _ => ⟨_, rfl⟩⟩
          · exact ⟨⟨_, rfl⟩, fun _ => ⟨_, rfl⟩⟩
        refine (Ensures.attempts hkeep s).weaken ?_ ?_ ?_
        · rintro w hw
          exact ⟨hw, s.compact, rfl⟩
        · rintro _ w ⟨hw, -⟩
          rw [doneAll_aside] at hw
          exact hw
        · rintro w ⟨c, hc⟩
          rw [On, hc]
          exact haside c
      · -- the new file is in place from the rename on
        refine Ensures.attempts_cons (R := fun s' => s' = s.compacted kept) ?_ ?_ <|
          Ensures.attempts_cons (R := fun s' => s' = s.compacted kept) ?_ ?_ <|
          Ensures.attempts_cons (R := fun s' => s' = (s.compacted kept).reopen) ?_ ?_ <|
          Ensures.attempts_nil fun _ h => h
        · rintro _ rfl
          rfl
        · rintro _ _ rfl
          exact haside _
        · rintro _ rfl
          rfl
        · rintro _ _ rfl
          exact hsound
        · rintro _ rfl
          rfl
        · rintro _ _ rfl
          exact hsound
    · refine Ensures.update ?_
      rintro _ rfl
      have hrec : (s.compacted kept).recovered = kept :=
        recovered_of_framed rfl (framed_logFile hkept)
      refine ⟨⟨hsound.file, ?_⟩, ⟨{ l with records := kept }, rfl, rfl, rfl, rfl⟩, fun e he => ?_⟩
      · obtain ⟨hinc, hcov, hnum, hack, holder, hmem⟩ := hsound.accounts
        refine ⟨hinc, hcov, hnum, hack, holder, ?_⟩
        rintro _ ⟨⟩
        obtain ⟨hlinc, hl⟩ := hmem l hlog
        have hsub := AuditLog.retained_sublist hret
        exact ⟨hlinc.sublist hsub, fun e he => hl e (hsub.subset he)⟩
      · refine (hall e he).imp (fun hk => ?_) fun hd => ⟨kept, hd⟩
        have hsame : Audit.recovered { (s.compacted kept).reopen with
            log := some { l with records := kept } } = kept := hrec
        rwa [hsame]

/-! ## The side file -/

/-- The side file holds nothing that is relied on. -/
theorem ensures_persistHighWater {P E : Audit → Prop}
    (hP : ∀ s bytes, P s → P (setSeqFile bytes s)) (next : Nat) :
    Ensures (On P) (persistHighWater next) (fun _ => On P) (On E) := by
  have hkeep : ∀ a ∈ [op (setSeqFile []), ⟨setSeqFile (Bytes.leBytes 8 next),
      fun reached => setSeqFile (tornBytes (Bytes.leBytes 8 next) reached)⟩, touch, touch],
      ∀ s', P s' → P (a.done s') ∧ ∀ r, P (a.torn r s') := by
    intro a ha s' hs
    simp only [List.mem_cons, List.not_mem_nil, or_false] at ha
    rcases ha with rfl | rfl | rfl | rfl
    · exact ⟨hP _ _ hs, fun _ => hs⟩
    · exact ⟨hP _ _ hs, fun _ => hP _ _ hs⟩
    · exact ⟨hs, fun _ => hs⟩
    · exact ⟨hs, fun _ => hs⟩
  refine Ensures.fix fun s hs => ?_
  refine Ensures.ignore (Q := P) ?_
  exact (Ensures.attempts hkeep s).weaken (fun w hw => ⟨hw, hs⟩) (fun _ _ h => h.2) fun _ h => h

/-! ## Appending -/

/-- What a log that is to be appended to is. -/
structure Ready (s : Audit) (l : AuditLog) : Prop where
  sound : s.Sound
  log : s.log = some l
  inStep : s.InStep l.records

theorem Ready.setSeqFile (h : s.Ready l) (bytes : List UInt8) :
    (Audit.setSeqFile bytes s).Ready l :=
  ⟨h.sound.of_eq rfl rfl rfl rfl rfl, h.log,
    ⟨h.inStep.attached, h.inStep.file, h.inStep.cursor⟩⟩

theorem Ready.fits (h : s.Ready l) : ∀ r ∈ l.records, r.Fits :=
  fun r hr => ((h.sound.accounts.memory l h.log).2 r hr).2.1

theorem Ready.recovered (h : s.Ready l) : s.recovered = l.records := h.inStep.recovered h.fits

/-- The next number is above every one that was given. -/
theorem Ready.lt_nextSeq (h : s.Ready l) {e : AuditRecord} (he : e ∈ s.seen ++ l.records) :
    e.seq < l.nextSeq := by
  have hmem := (h.sound.accounts.memory l h.log).2
  rcases List.mem_append.1 he with he | he
  · have hcov := h.sound.accounts.covered e he
    rw [h.recovered] at hcov
    rcases hcov with he | ⟨r, hr, hlt⟩
    · exact (hmem e he).2.2
    · exact hlt.trans (hmem r hr).2.2
  · exact (hmem e he).2.2

/-- An event more in the file, under the next number. -/
theorem Ready.accounts_concat (h : s.Ready l) (event : AuditEvent) :
    Accounts (l.records ++ [⟨l.nextSeq, event⟩]) s := by
  obtain ⟨hinc, hcov, hnum, hack, holder, hmem⟩ := h.sound.accounts
  rw [h.recovered] at hinc hcov hnum hack
  refine ⟨?_, fun e he => ?_, fun e he e' he' heq => ?_, fun e he => ?_, holder, hmem⟩
  · refine List.pairwise_append.2 ⟨hinc, List.pairwise_singleton _ _, fun e he r hr => ?_⟩
    rw [List.mem_singleton.1 hr]
    exact h.lt_nextSeq (List.mem_append_right _ he)
  · rcases hcov e he with hmem | ⟨r, hr, hlt⟩
    · exact Or.inl (List.mem_append_left _ hmem)
    · exact Or.inr ⟨r, List.mem_append_left _ hr, hlt⟩
  · rw [← List.append_assoc, List.mem_append, List.mem_singleton] at he he'
    rcases he with he | rfl
    · rcases he' with he' | rfl
      · exact hnum e he e' he' heq
      · exact absurd heq (h.lt_nextSeq he).ne
    · rcases he' with he' | rfl
      · exact absurd heq.symm (h.lt_nextSeq he').ne
      · rfl
  · exact (hack e he).imp_left (List.mem_append_left _)

/-- The file after an append wrote its bytes, or some of them. -/
theorem Ready.writeFile (h : s.Ready l) (bytes : List UInt8) :
    (Audit.writeFile bytes s).file = some (logFile l.records ++ bytes) ∧
      (Audit.writeFile bytes s).cursor = (logFile l.records ++ bytes).length := by
  obtain ⟨hatt, hfile, hcur⟩ := h.inStep
  constructor
  · simp only [Audit.writeFile, hatt, hfile, hcur, if_true, Option.map_some, overwrite_length]
  · simp only [Audit.writeFile, hcur, List.length_append]

/-- The event is in the file, and not yet in memory. -/
theorem Ready.written (h : s.Ready l) {event : AuditEvent}
    (hfit : (AuditRecord.mk l.nextSeq event).Fits) :
    (Audit.writeFile (AuditRecord.mk l.nextSeq event).encode s).Sound ∧
      (Audit.writeFile (AuditRecord.mk l.nextSeq event).encode s).InStep
        (l.records ++ [⟨l.nextSeq, event⟩]) := by
  obtain ⟨hfile, hcur⟩ := h.writeFile (AuditRecord.mk l.nextSeq event).encode
  rw [← logFile_concat] at hfile hcur
  have hfits : ∀ r ∈ l.records ++ [⟨l.nextSeq, event⟩], r.Fits := by
    intro r hr
    rcases List.mem_append.1 hr with hr | hr
    · exact h.fits r hr
    · rw [List.mem_singleton.1 hr]
      exact hfit
  have hstep : (Audit.writeFile (AuditRecord.mk l.nextSeq event).encode s).InStep
      (l.records ++ [⟨l.nextSeq, event⟩]) := ⟨h.inStep.attached, hfile, hcur⟩
  refine ⟨⟨fun bytes hb => ?_, ?_⟩, hstep⟩
  · rw [hfile] at hb
    obtain rfl := Option.some.inj hb
    exact Or.inr ⟨_, framed_logFile hfits⟩
  · rw [hstep.recovered hfits]
    obtain ⟨hinc, hcov, hnum, hack, holder, hmem⟩ := h.accounts_concat event
    exact ⟨hinc, hcov, hnum, hack, holder, hmem⟩

/-- A torn append changes no event in the file. -/
theorem Ready.torn (h : s.Ready l) (hfit : r.Fits) (reached : Nat) :
    (Audit.writeFile (tornBytes r.encode reached) s).Sound := by
  obtain ⟨hfile, -⟩ := h.writeFile (tornBytes r.encode reached)
  have hframed := framed_torn h.fits hfit reached
  refine h.sound.of_file rfl rfl rfl rfl (fun bytes hb => ?_) ?_
  · rw [hfile] at hb
    obtain rfl := Option.some.inj hb
    exact Or.inr ⟨_, hframed⟩
  · rw [recovered_of_framed hfile hframed, h.recovered]

/-- The log with an event more, in memory and in the file. -/
theorem Ready.pushed (h : s.Ready l) {event : AuditEvent}
    (hfit : (AuditRecord.mk l.nextSeq event).Fits) :
    Ready { Audit.writeFile (AuditRecord.mk l.nextSeq event).encode s with
      log := some { l with records := l.records ++ [⟨l.nextSeq, event⟩], nextSeq := l.nextSeq + 1 }
      seen := s.seen ++ [⟨l.nextSeq, event⟩] }
      { l with records := l.records ++ [⟨l.nextSeq, event⟩], nextSeq := l.nextSeq + 1 } := by
  obtain ⟨hsound, hstep⟩ := h.written hfit
  have hmemory := (h.sound.accounts.memory l h.log).2
  have hrec : (Audit.writeFile (AuditRecord.mk l.nextSeq event).encode s).recovered =
      l.records ++ [⟨l.nextSeq, event⟩] := by
    refine hstep.recovered fun r hr => ?_
    rcases List.mem_append.1 hr with hr | hr
    · exact h.fits r hr
    · rw [List.mem_singleton.1 hr]
      exact hfit
  obtain ⟨hinc, hcov, hnum, hack, holder, -⟩ := h.accounts_concat event
  refine ⟨⟨hsound.file, ?_⟩, rfl, hstep.attached, hstep.file, hstep.cursor⟩
  show Accounts (Audit.writeFile (AuditRecord.mk l.nextSeq event).encode s).recovered _
  rw [hrec]
  refine ⟨hinc, fun e he => ?_, fun e he e' he' => ?_, hack, holder, ?_⟩
  · rcases List.mem_append.1 he with he | he
    · exact hcov e he
    · exact Or.inl (List.mem_append_right _ he)
  · have hin : ∀ {x}, x ∈ (s.seen ++ [⟨l.nextSeq, event⟩]) ++ (l.records ++ [⟨l.nextSeq, event⟩]) →
        x ∈ s.seen ++ (l.records ++ [⟨l.nextSeq, event⟩]) := by
      intro x hx
      simp only [List.mem_append, List.mem_singleton] at hx ⊢
      rcases hx with (hx | hx) | hx
      · exact Or.inl hx
      · exact Or.inr (Or.inr hx)
      · exact Or.inr hx
    exact hnum e (hin he) e' (hin he')
  · rintro _ ⟨⟩
    refine ⟨hinc, fun e he => ?_⟩
    rcases List.mem_append.1 he with he | he
    · obtain ⟨hseen, hefit, hlt⟩ := hmemory e he
      exact ⟨List.mem_append_left _ hseen, hefit, hlt.trans (Nat.lt_succ_self _)⟩
    · obtain rfl := List.mem_singleton.1 he
      exact ⟨List.mem_append_right _ he, hfit, Nat.lt_succ_self _⟩

/-- **Append** to a log in step loses nothing, whether it fails or not. -/
theorem ensures_append (l : AuditLog) (event : AuditEvent)
    (hfit : (AuditRecord.mk l.nextSeq event).Fits) :
    Ensures (On fun s => s.Ready l) (append event) (fun _ => On Sound) (On Sound) := by
  refine Ensures.fix fun s hready => ?_
  unfold append
  refine Ensures.read ?_
  simp only [hready.log]
  refine Ensures.bind (R := fun _ => On fun s' =>
    s' = writeFile (AuditRecord.mk l.nextSeq event).encode s) ?_ fun _ => ?_
  · refine Ensures.attempts_cons
      (R := fun s' => s' = writeFile (AuditRecord.mk l.nextSeq event).encode s) ?_ ?_ <|
      Ensures.attempts_cons
        (R := fun s' => s' = writeFile (AuditRecord.mk l.nextSeq event).encode s) ?_ ?_ <|
      Ensures.attempts_nil fun _ h => h
    · rintro _ rfl
      rfl
    · rintro _ reached rfl
      exact hready.torn hfit reached
    · rintro _ rfl
      rfl
    · rintro _ _ rfl
      exact (hready.written hfit).1
  · let l' : AuditLog :=
      { l with records := l.records ++ [⟨l.nextSeq, event⟩], nextSeq := l.nextSeq + 1 }
    refine Ensures.bind (R := fun _ => On fun s' => s'.Ready l') (Ensures.update ?_) fun _ => ?_
    · rintro _ rfl
      exact hready.pushed hfit
    · refine Ensures.bind (R := fun _ => On fun s' => s'.Ready l')
        (ensures_persistHighWater (fun s' bytes h => h.setSeqFile bytes) _) fun _ => ?_
      refine Ensures.bind (R := fun _ => On (Enforced l'.records))
        ((ensures_enforceRetention l').weaken (fun w h => ⟨h.sound, h.log, h.inStep⟩)
          (fun _ _ h => h) fun _ h => h) fun _ => ?_
      refine Ensures.bind (R := fun _ => On Sound) (Ensures.update fun s' h => ?_) fun _ =>
        Ensures.pure _ fun _ h => h
      refine ⟨h.sound.file, ?_⟩
      obtain ⟨hinc, hcov, hnum, hack, holder, hmem⟩ := h.sound.accounts
      refine ⟨hinc, hcov, hnum, fun e he => ?_, holder, hmem⟩
      rcases List.mem_append.1 he with he | he
      · exact hack e he
      · obtain rfl := List.mem_singleton.1 he
        exact h.kept _ (List.mem_append_right _ (List.mem_singleton_self _))

/-! ## Opening -/

/-- A log that is being opened on what a file was found to hold: the file is
still that one, or holds no event. -/
structure Opening (raw : Option (List UInt8)) (s : Audit) : Prop where
  sound : s.Sound
  log : s.log = none
  found : ∀ x, raw.bind replay = some x → s.file = raw
  empty : raw.bind replay = none → s.recovered = []

/-- The same, with the file open. -/
structure Opened (raw : Option (List UInt8)) (s : Audit) : Prop extends s.Opening raw where
  attached : s.attached = true
  exists_file : ∃ bytes, s.file = some bytes

/-- A log that was repaired, and is in step with its file. -/
structure Repaired (records : List AuditRecord) (s : Audit) : Prop where
  sound : s.Sound
  log : s.log = none
  inStep : s.InStep records
  fits : ∀ r ∈ records, r.Fits

theorem Repaired.setSeqFile (h : s.Repaired records) (bytes : List UInt8) :
    (Audit.setSeqFile bytes s).Repaired records :=
  ⟨h.sound.of_eq rfl rfl rfl rfl rfl, h.log,
    ⟨h.inStep.attached, h.inStep.file, h.inStep.cursor⟩, h.fits⟩

theorem lt_nextSeq {highWater : Option Nat} (hr : r ∈ records) :
    r.seq < nextSeq records highWater := by
  have hmem : r.seq ∈ records.map AuditRecord.seq := List.mem_map_of_mem hr
  rcases hmax : (records.map AuditRecord.seq).max? with _ | m
  · rw [List.max?_eq_none_iff] at hmax
    rw [hmax] at hmem
    cases hmem
  · have hle := (List.max?_eq_some_iff.1 hmax).2 _ hmem
    rw [nextSeq, hmax]
    exact (Nat.lt_succ_of_le hle).trans_le (le_max_left _ _)

/-- The repaired log with its events in memory. -/
theorem Repaired.ready (h : s.Repaired records) (policy : RetentionPolicy)
    (highWater : Option Nat) :
    Ready { s with
      log := some ⟨policy, records, nextSeq records highWater⟩
      seen := s.seen ++ records } ⟨policy, records, nextSeq records highWater⟩ := by
  have hrec : s.recovered = records := h.inStep.recovered h.fits
  obtain ⟨hinc, hcov, hnum, hack, holder, -⟩ := h.sound.accounts
  rw [hrec] at hinc hcov hnum hack
  refine ⟨⟨h.sound.file, ?_⟩, rfl, h.inStep.attached, h.inStep.file, h.inStep.cursor⟩
  show Accounts s.recovered _
  rw [hrec]
  refine ⟨hinc, fun e he => ?_, fun e he e' he' => ?_, hack, holder, ?_⟩
  · rcases List.mem_append.1 he with he | he
    · exact hcov e he
    · exact Or.inl he
  · have hin : ∀ {x}, x ∈ (s.seen ++ records) ++ records → x ∈ s.seen ++ records := by
      intro x hx
      rcases List.mem_append.1 hx with hx | hx
      · exact hx
      · exact List.mem_append_right _ hx
    exact hnum e (hin he) e' (hin he')
  · rintro _ ⟨⟩
    exact ⟨hinc, fun e he => ⟨List.mem_append_right _ he, h.fits e he, lt_nextSeq he⟩⟩

/-- A damaged file is taken aside. -/
theorem ensures_preserve {raw : Option (List UInt8)} :
    Ensures (On (Opening raw))
      (attempts AuditError.io
        (if raw.bind replay = none ∧ raw.getD [] ≠ [] then preserveCorrupt else []))
      (fun _ => On (Opening raw)) (On Sound) := by
  split
  · rename_i hcorrupt
    refine Ensures.attempts_cons (R := Opening raw) (fun _ h => h) (fun _ _ h => h.sound) <|
      Ensures.attempts_cons (R := Opening raw) (fun s h => ?_) (fun _ _ h => h.sound) <|
      Ensures.attempts_nil fun _ h => h
    have hrec : ({ s with file := none } : Audit).recovered = s.recovered := by
      rw [h.empty hcorrupt.1]
      rfl
    refine ⟨h.sound.of_file rfl rfl rfl rfl (fun bytes hb => ?_) hrec, h.log, fun x hx => ?_,
      fun hx => hrec.trans (h.empty hx)⟩
    · cases hb
    · rw [hcorrupt.1] at hx
      cases hx
  · exact Ensures.attempts_nil fun _ h => h

theorem ensures_openFile {raw : Option (List UInt8)} :
    Ensures (On (Opening raw)) (attempts AuditError.io [op openFile, touch]) (fun _ => On (Opened raw))
      (On Sound) := by
  refine Ensures.attempts_cons (R := Opened raw) (fun s h => ?_) (fun _ _ h => h.sound) <|
    Ensures.attempts_cons (R := Opened raw) (fun _ h => h) (fun _ _ h => h.sound) <|
    Ensures.attempts_nil fun _ h => h
  have hrec : (openFile s).recovered = s.recovered := by
    rcases hfile : s.file with _ | bytes
    · rw [recovered_of_none hfile]
      have hopen : (openFile s).file = some [] := by
        simp only [openFile, hfile, Option.getD_none]
      exact recovered_of_replay hopen replay_nil
    · simp only [recovered, openFile, hfile, Option.getD_some]
  refine ⟨⟨h.sound.of_file rfl rfl rfl rfl (fun bytes hb => ?_) hrec, h.log, fun x hx => ?_,
    fun hx => hrec.trans (h.empty hx)⟩, rfl, ⟨_, rfl⟩⟩
  · obtain rfl : s.file.getD [] = bytes := Option.some.inj hb
    rcases hfile : s.file with _ | bytes
    · exact Or.inl replay_nil
    · exact h.sound.file bytes hfile
  · have hfile := h.found x hx
    rcases raw with _ | bytes
    · cases hx
    · show some (s.file.getD []) = some bytes
      rw [hfile, Option.getD_some]

theorem ensures_readHighWater {P E : Audit → Prop} :
    Ensures (On P) readHighWater (fun _ => On P) (On E) := by
  unfold readHighWater
  refine Ensures.bind (R := fun _ => On P)
    (Ensures.probe (Ensures.attempt (fun _ h => h) fun _ _ h => h)) fun readable => ?_
  refine Ensures.fix fun s hs => Ensures.read (Ensures.pure _ ?_)
  rintro w rfl
  exact hs

/-- The log is repaired: a torn tail is cut off, or the file starts anew. -/
theorem ensures_repair {raw : Option (List UInt8)} :
    Ensures (On (Opened raw)) (attempts AuditError.io (repair (raw.bind replay)))
      (fun _ => On (Repaired (((raw.bind replay).map Prod.fst).getD []))) (On Sound) := by
  rcases hex : raw.bind replay with _ | ⟨rs, goodLen⟩
  · -- nothing is recovered: the file is emptied and gets its header
    have hempty : ∀ {s : Audit}, s.Opened raw → s.recovered = [] := fun h => h.empty hex
    have hsound : ∀ {s s' : Audit}, s.Opened raw → s'.log = s.log → s'.acked = s.acked →
        s'.seen = s.seen → s'.dropped = s.dropped → (∃ bytes, s'.file = some bytes ∧
          (replay bytes = none ∨ bytes = logFile [])) → s'.Sound := by
      rintro s s' h hlog hacked hseen hdropped ⟨bytes, hfile, hbytes⟩
      have hframed : Framed [] (logFile []) := framed_logFile fun r hr => by cases hr
      refine h.sound.of_file hlog hacked hseen hdropped (fun b hb => ?_) ?_
      · rw [hfile] at hb
        obtain rfl := Option.some.inj hb
        rcases hbytes with hnone | rfl
        · exact Or.inl hnone
        · exact Or.inr ⟨[], hframed⟩
      · rw [hempty h]
        rcases hbytes with hnone | rfl
        · exact recovered_of_replay hfile hnone
        · exact recovered_of_framed hfile hframed
    refine Ensures.fix fun s h => ?_
    obtain ⟨bytes, hfile⟩ := h.exists_file
    have hcut : (setLen 0 s).file = some [] := by
      simp only [setLen, hfile, Option.map_some, resize_zero]
    have hwritten : ∀ bytes, (writeFile bytes (seekTo 0 (setLen 0 s))).file = some bytes := by
      intro bytes
      have hatt := h.attached
      simp only [writeFile, seekTo, setLen, hfile, hatt, if_true, Option.map_some, resize_zero]
      exact congrArg some (overwrite_length [] bytes)
    have hstart : (writeFile header (seekTo 0 (setLen 0 s))).Repaired [] := by
      refine ⟨hsound h rfl rfl rfl rfl ⟨_, hwritten header, Or.inr rfl⟩, h.log,
        ⟨h.attached, hwritten header, rfl⟩, fun r hr => ?_⟩
      cases hr
    refine Ensures.attempts_cons (R := fun s' => s' = setLen 0 s) ?_ ?_ <|
      Ensures.attempts_cons (R := fun s' => s' = seekTo 0 (setLen 0 s)) ?_ ?_ <|
      Ensures.attempts_cons
        (R := fun s' => s' = writeFile header (seekTo 0 (setLen 0 s))) ?_ ?_ <|
      Ensures.attempts_cons
        (R := fun s' => s' = writeFile header (seekTo 0 (setLen 0 s))) ?_ ?_ <|
      Ensures.attempts_nil ?_
    · rintro _ rfl
      rfl
    · rintro _ _ rfl
      exact h.sound
    · rintro _ rfl
      rfl
    · rintro _ _ rfl
      exact hsound h rfl rfl rfl rfl ⟨_, hcut, Or.inl replay_nil⟩
    · rintro _ rfl
      rfl
    · rintro _ reached rfl
      exact hsound h rfl rfl rfl rfl ⟨_, hwritten _, Or.inl (replay_torn_header reached)⟩
    · rintro _ rfl
      rfl
    · rintro _ _ rfl
      exact hstart.sound
    · rintro _ rfl
      exact hstart
  · -- the file is cut to its events
    refine Ensures.fix fun s h => ?_
    have hfile := h.found _ hex
    obtain ⟨bytes, rfl, hreplay⟩ := Option.bind_eq_some_iff.1 hex
    have hframed : Framed rs bytes ∧ goodLen = (logFile rs).length := by
      rcases h.sound.file bytes hfile with hnone | ⟨rs', hframed⟩
      · cases hnone.symm.trans hreplay
      · have heq := hreplay.symm.trans hframed.replay
        simp only [Option.some.injEq, Prod.mk.injEq] at heq
        obtain ⟨rfl, rfl⟩ := heq
        exact ⟨hframed, rfl⟩
    obtain ⟨hframed, rfl⟩ := hframed
    have hcut : (setLen (logFile rs).length s).file = some (logFile rs) := by
      obtain ⟨tail, rfl, -⟩ := hframed.shape
      simp only [setLen, hfile, Option.map_some, resize_append]
    have hsound : (setLen (logFile rs).length s).Sound := by
      refine h.sound.of_file rfl rfl rfl rfl (fun b hb => ?_) ?_
      · rw [hcut] at hb
        obtain rfl := Option.some.inj hb
        exact Or.inr ⟨rs, framed_logFile hframed.fits⟩
      · rw [recovered_of_framed hcut (framed_logFile hframed.fits),
          recovered_of_framed hfile hframed]
    have hrepaired : (seekTo (logFile rs).length (setLen (logFile rs).length s)).Repaired rs :=
      ⟨hsound.of_eq rfl rfl rfl rfl rfl, h.log, ⟨h.attached, hcut, rfl⟩, hframed.fits⟩
    refine Ensures.attempts_cons (R := fun s' => s' = setLen (logFile rs).length s) ?_ ?_ <|
      Ensures.attempts_cons
        (R := fun s' => s' = seekTo (logFile rs).length (setLen (logFile rs).length s)) ?_ ?_ <|
      Ensures.attempts_nil ?_
    · rintro _ rfl
      rfl
    · rintro _ _ rfl
      exact h.sound
    · rintro _ rfl
      rfl
    · rintro _ _ rfl
      exact hsound
    · rintro _ rfl
      exact hrepaired

/-- **Open** on what the file holds loses nothing, whether it fails or not. -/
theorem ensures_openOn (policy : RetentionPolicy) (raw : Option (List UInt8)) :
    Ensures (On (Opening raw)) (openOn policy raw) (fun _ => On Sound) (On Sound) := by
  unfold openOn
  refine Ensures.bind ensures_preserve fun _ => ?_
  refine Ensures.bind ensures_openFile fun _ => ?_
  refine Ensures.bind ensures_readHighWater fun highWater => ?_
  refine Ensures.bind ensures_repair fun _ => ?_
  refine Ensures.bind (ensures_persistHighWater (fun s bytes h => h.setSeqFile bytes) _)
    fun _ => ?_
  refine Ensures.bind (R := fun _ => On fun s => s.Ready ⟨policy,
      ((raw.bind replay).map Prod.fst).getD [],
      nextSeq (((raw.bind replay).map Prod.fst).getD []) highWater⟩) (Ensures.update ?_)
    fun _ => ?_
  · intro s h
    exact h.ready policy highWater
  · exact (ensures_enforceRetention _).weaken (fun w h => ⟨h.sound, h.log, h.inStep⟩)
      (fun _ _ h => h.sound) fun _ h => h

/-- A closed log is opened on its file, or on none when it holds no event. -/
theorem Sound.opening (h : s.Sound) (hlog : s.log = none) : s.Opening s.file := by
  refine ⟨h, hlog, fun _ _ => rfl, fun hnone => ?_⟩
  rw [recovered, hnone]
  rfl

theorem Sound.opening_none (h : s.Sound) (hlog : s.log = none) (hrec : s.recovered = []) :
    s.Opening none := by
  refine ⟨h, hlog, fun _ hx => ?_, fun _ => hrec⟩
  cases hx

theorem sound_orClosed {m : AuditM Unit} {P : Faulty Audit → Prop} {w : Faulty Audit}
    (h : Ensures P m (fun _ => On Sound) (On Sound)) (hw : P w) : (orClosed m w).Sound := by
  have hrun := h w hw
  unfold orClosed
  split at hrun
  · rename_i heq
    rw [heq]
    exact hrun
  · rename_i heq
    rw [heq]
    exact Sound.closed hrun

/-- **Reopen** loses nothing when a log with events is found. -/
theorem sound_reopen (h : s.Sound) (hlog : s.log = none) (policy : RetentionPolicy)
    {plan : List (Option Nat)}
    (hfound : plan[0]?.join = none → plan[1]?.join ≠ none → s.recovered = []) :
    (orClosed (openWithPolicy policy) ⟨s, plan⟩).Sound := by
  refine sound_orClosed (P := fun w => w = ⟨s, plan⟩) ?_ rfl
  unfold openWithPolicy
  refine Ensures.bind (R := fun _ w => w.state = s ∧ plan[0]?.join = none ∧ w.plan = plan.tail)
    ?_ fun _ => ?_
  · rintro _ rfl
    unfold attempt
    rw [List.head?_eq_getElem?]
    rcases hplan : plan[0]?.join with _ | reached
    · exact ⟨rfl, rfl, rfl⟩
    · exact h
  · -- a file that is not found holds no event
    refine Ensures.bind
      (R := fun found w => w.state = s ∧ (found = false → s.recovered = [])) ?_ fun found => ?_
    · rintro w ⟨hstate, hfirst, hplan⟩
      unfold probe attempt
      rw [hplan, List.head?_eq_getElem?, List.getElem?_tail]
      rcases hnext : plan[0 + 1]?.join with _ | reached
      · refine ⟨hstate, fun hfalse => ?_⟩
        cases hfalse
      · refine ⟨hstate, fun _ => hfound hfirst ?_⟩
        rw [show plan[1]?.join = some reached from hnext]
        exact fun hnone => by cases hnone
    · intro w hw
      obtain ⟨hstate, hempty⟩ := hw
      refine Ensures.read (s := s) ?_ w hstate
      have hopen : ∀ raw, s.Opening raw → Ensures (On fun s' => s' = s) (openOn policy raw)
          (fun _ => On Sound) (On Sound) := by
        intro raw hraw
        refine (ensures_openOn policy raw).weaken ?_ (fun _ _ h => h) fun _ h => h
        rintro w' hw'
        rw [On, show w'.state = s from hw']
        exact hraw
      split
      · refine Ensures.bind (R := fun _ => On fun s' => s' = s)
          (Ensures.attempt (fun _ h => h) ?_) fun _ => hopen _ (h.opening hlog)
        rintro _ _ rfl
        exact h
      · rename_i hnot
        refine hopen none (h.opening_none hlog ?_)
        rcases hfile : s.file with _ | bytes
        · exact recovered_of_none hfile
        · refine hempty ?_
          rw [not_and_or, hfile] at hnot
          simpa using hnot

/-- **Step.** -/
theorem Sound.step (h : s.Sound) {a : AuditStep} (hsafe : s.Safe a) (hstep : s.step a = .ok s') :
    s'.Sound := by
  cases a with
  | append event plan =>
    obtain rfl := Except.ok.inj hstep
    simp only [Safe] at hsafe
    rcases hlog : s.log with _ | l
    · have hrun : Ensures (On fun s' => s' = s) (append event) (fun _ => On Sound) (On Sound) := by
        unfold append
        refine Ensures.read ?_
        simp only [hlog]
        refine Ensures.throw _ ?_
        rintro _ rfl
        exact h
      exact Ensures.finalState (E := On Sound) hrun rfl
    · rw [hlog] at hsafe
      exact Ensures.finalState (E := On Sound) (ensures_append l event hsafe.2)
        (show s.Ready l from ⟨h, hlog, hsafe.1⟩)
  | crash =>
    obtain rfl := Except.ok.inj hstep
    exact h.closed
  | reopen policy plan =>
    obtain rfl := Except.ok.inj hstep
    exact sound_reopen h.closed rfl policy hsafe

/-- **The audit log loses nothing** in a run that appends to a log in step
only, and finds a log with events when it opens it. -/
theorem lossless_of_run {steps pre : List AuditStep} (h : Meets step Safe fresh steps)
    (hpre : pre <+: steps) : (runCalls step fresh pre).Lossless :=
  (run_invariant (fun _ _ _ hI hcond hstep => Sound.step hI hcond hstep) sound_fresh
    (h.of_prefix hpre)).lossless

def login : AuditEvent := ⟨1, "ann", .login, "", "", true⟩

/-- A retention bound of one event. -/
def keepOne : RetentionPolicy := ⟨1, none⟩

/-- A log is opened, an append fails, the log is opened again, and two events
are appended, of which a compaction drops one. -/
def repairedRun : List AuditStep :=
  [.reopen keepOne [], .append login [some 3], .crash, .reopen keepOne [none, none, some 0],
    .reopen keepOne [], .append login [], .append login []]

theorem lossless_of_repairedRun : (runCalls step fresh repairedRun).Lossless :=
  lossless_of_run (show Meets step Safe fresh repairedRun by decide +kernel) (List.prefix_refl _)

/-- An append fails with three bytes written, and the next one succeeds. -/
def tornRun : List AuditStep := [.reopen keepOne [], .append login [some 3], .append login []]

/-- The acknowledged event stands behind the torn bytes, where no reopen
finds it. -/
theorem not_lossless_of_tornRun : ¬ (runCalls step fresh tornRun).Lossless := by
  intro h
  have hacked : (runCalls step fresh tornRun).acked = [⟨0, login⟩] := by decide +kernel
  have hrecovered : (runCalls step fresh tornRun).recovered = [] := by decide +kernel
  have hdropped : (runCalls step fresh tornRun).dropped = [] := by decide +kernel
  rcases h.kept ⟨0, login⟩ (by rw [hacked]; exact List.mem_singleton_self _) with he | ⟨kept, he, -⟩
  · rw [hrecovered] at he
    cases he
  · rw [hdropped] at he
    cases he

end Audit

end Epiphany

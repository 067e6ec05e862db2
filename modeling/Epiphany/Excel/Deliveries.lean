import Epiphany.Excel.ReadCoalescer
/-!
# Deliveries — every read its own cell, once

A read that is live waits in a bucket or in a task, and a task that is left
with nothing has pushed a cell for each read it was about, so each read that is
not unsubscribed is delivered once (`Accounted`). A value is the server's of
the read's own cube and coordinate, under the header of the request that
brought it (`Sound`). The header is that of the sandbox when the request was
built: it is the read's own sandbox where no switch comes between
(`coalesced`).
-/

namespace Epiphany

namespace ReadCoalescer

variable (h : ExcelHost) (right : Option String → PendingRead → Prop) (s : ReadCoalescer)

/-- A read is one of a bucket's. -/
def Owns (key : BatchKey) (id : Nat) : Prop := ∃ r, s.reads[id]? = some r ∧ r.key = key

/-- What is pushed for a read is what the server had for its own cube and
coordinate, at some time since it was subscribed and under a right header; or
the message of a request that failed on the way. -/
def Answered (id : Nat) (reply : CellReply) : Prop :=
  ∃ r, s.reads[id]? = some r ∧
    ((∃ header n, right header r ∧ r.since ≤ n ∧ n ≤ s.version ∧
      h.server n header r.key.cube r.coord = reply) ∨
      ∃ message ∈ s.failures, reply = .error message)

/-- A request in flight has a right header for each of its reads, and what is
to be pushed is an answer. -/
def Fits : ReadPhase → Prop
  | .flight header request =>
    ∀ id ∈ request.reads, ∀ r : PendingRead, s.reads[id]? = some r → right header r
  | .deliver cells _ => ∀ c ∈ cells, s.Answered h right c.1 c.2
  | _ => True

/-- A task is about reads of its own key, and its phase fits. -/
def Tends (b : ReadBatch) : Prop :=
  (∀ id ∈ b.phase.reads, s.Owns b.key id) ∧ s.Fits h right b.phase

structure Sound : Prop where
  pending : ∀ b ∈ s.pending, ∀ id ∈ b.reads, s.Owns b.key id
  batches : ∀ b ∈ s.batches, s.Tends h right b
  since : ∀ (id : Nat) (r : PendingRead), s.reads[id]? = some r → r.since ≤ s.version
  delivered : ∀ c ∈ s.delivered, s.Answered h right c.1 c.2

def Waits (id : Nat) : Prop :=
  (∃ b ∈ s.pending, id ∈ b.reads) ∨ ∃ b ∈ s.batches, id ∈ b.phase.reads

structure Accounted : Prop where
  kept : ∀ id : Nat, s.reads[id]?.isSome = true → s.state id = .live → s.Waits id
  armed : s.pending ≠ [] → s.armed = true
  disposing : ∀ id ∈ s.disposing, s.state id ≠ .live
  once : (s.delivered.map Prod.fst).Nodup
  marked : ∀ id, id ∈ s.delivered.map Prod.fst ↔ s.state id = .delivered

/-- The requests that a step builds are built under right headers. -/
def Builds (s : ReadCoalescer) (x : ReadStep) : Prop :=
  ∀ p ∈ s.built x, ∀ r ∈ s.reads[p.2]?, right (sandboxHeader (s.sandbox p.1.client)) r

/-! ## What no step takes back -/

/-- A state has all reads, versions and failures of another. -/
structure Grows (s next : ReadCoalescer) : Prop where
  reads : ∀ (id : Nat) (r : PendingRead), s.reads[id]? = some r → next.reads[id]? = some r
  version : s.version ≤ next.version
  failures : s.failures ⊆ next.failures

variable {h right s}

theorem Grows.of_eq {next : ReadCoalescer} (hreads : next.reads = s.reads)
    (hversion : next.version = s.version) (hfailures : next.failures = s.failures) :
    Grows s next :=
  ⟨fun _ _ hr => hreads ▸ hr, hversion ▸ Nat.le_refl _, hfailures ▸ List.Subset.refl _⟩

theorem Owns.grow {next : ReadCoalescer} (hg : Grows s next) {key : BatchKey} {id : Nat}
    (ho : s.Owns key id) : next.Owns key id := by
  obtain ⟨r, hr, hkey⟩ := ho
  exact ⟨r, hg.reads id r hr, hkey⟩

theorem Answered.grow {next : ReadCoalescer} (hg : Grows s next) {id : Nat} {reply : CellReply}
    (ha : s.Answered h right id reply) : next.Answered h right id reply := by
  obtain ⟨r, hr, ⟨header, n, hright, hsince, hn, hserver⟩ | ⟨message, hm, hreply⟩⟩ := ha
  · exact ⟨r, hg.reads id r hr, .inl ⟨header, n, hright, hsince, hn.trans hg.version, hserver⟩⟩
  · exact ⟨r, hg.reads id r hr, .inr ⟨message, hg.failures hm, hreply⟩⟩

theorem Tends.grow {next : ReadCoalescer} (hg : Grows s next) {b : ReadBatch}
    (ht : s.Tends h right b) : next.Tends h right b := by
  obtain ⟨howns, hfits⟩ := ht
  refine ⟨fun id hid => (howns id hid).grow hg, ?_⟩
  obtain ⟨key, phase⟩ := b
  cases phase with
  | flight header request =>
    intro id hid r hr
    -- the reads of a task are known, so a read that is known later was known
    obtain ⟨r', hr', -⟩ := howns id (List.mem_append_left _ hid)
    obtain rfl := Option.some.inj ((hg.reads id r' hr').symm.trans hr)
    exact hfits id hid r' hr'
  | deliver cells later => exact fun c hc => (hfits c hc).grow hg
  | sweep live rest => trivial
  | build request => trivial
  | fallBack later => trivial

/-! ## A step of a task -/

theorem TaskStep.grows {b : ReadBatch} {q : ReadCoalescer × List ReadBatch} (ht : TaskStep s b q) :
    Grows s q.1 := by
  refine ⟨fun _ _ hr => ht.sameQueue.reads ▸ hr, ht.sameQueue.version ▸ Nat.le_refl _, ?_⟩
  rcases ht.effect with heq | ⟨i, reply, heq⟩ | ⟨message, heq⟩
  · rw [heq]
    exact List.Subset.refl _
  · rw [heq]
    unfold deliver
    split_ifs <;> exact List.Subset.refl _
  · rw [heq]
    exact List.subset_cons_self _ _

/-- A delivery is counted once. -/
theorem Accounted.deliver (ha : s.Accounted) (id : Nat) (reply : CellReply) :
    ((s.deliver id reply).delivered.map Prod.fst).Nodup ∧
      ∀ i, i ∈ (s.deliver id reply).delivered.map Prod.fst ↔
        (s.deliver id reply).state i = .delivered := by
  unfold ReadCoalescer.deliver
  split_ifs with hlive
  · have hnot : id ∉ s.delivered.map Prod.fst := by
      rw [ha.marked id, hlive]
      simp
    refine ⟨?_, fun i => ?_⟩
    · simp only [List.map_append, List.map_cons, List.map_nil]
      exact List.nodup_append.2 ⟨ha.once, List.nodup_singleton id, by
        rintro x hx y hy rfl
        exact hnot (List.mem_singleton.1 hy ▸ hx)⟩
    · simp only [List.map_append, List.mem_append, ha.marked i, List.map_cons, List.map_nil,
        List.mem_singleton, Function.update_apply]
      split_ifs with hi <;> simp [hi]
  · exact ⟨ha.once, ha.marked⟩

theorem TaskStep.counts {b : ReadBatch} {q : ReadCoalescer × List ReadBatch} (ht : TaskStep s b q)
    (ha : s.Accounted) : (q.1.delivered.map Prod.fst).Nodup ∧
      ∀ i, i ∈ q.1.delivered.map Prod.fst ↔ q.1.state i = .delivered := by
  rcases ht.effect with heq | ⟨i, reply, heq⟩ | ⟨message, heq⟩
  · rw [heq]
    exact ⟨ha.once, ha.marked⟩
  · rw [heq]
    exact ha.deliver i reply
  · rw [heq]
    exact ⟨ha.once, ha.marked⟩

theorem accounted_resume {next : ReadCoalescer} {i : Nat}
    {f : ReadBatch → Except Unit (ReadCoalescer × List ReadBatch)}
    (hf : ∀ b q, f b = .ok q → TaskStep s b q) (ha : s.Accounted)
    (hok : s.resume i f = .ok next) : next.Accounted := by
  obtain ⟨b, q, hb, hq, rfl⟩ := resume_eq_ok hok
  have ht := hf b q hq
  have hsame := ht.sameQueue
  obtain ⟨honce, hmarked⟩ := ht.counts ha
  refine ⟨fun id hid hlive => ?_, ?_, ?_, honce, hmarked⟩
  · -- a live read waits where it did, or in what is left of the task
    dsimp only at hid hlive
    rw [hsame.reads] at hid
    rcases ha.kept id hid (ht.live hlive) with ⟨b', hb', hid'⟩ | ⟨b', hb', hid'⟩
    · exact Or.inl ⟨b', by rwa [hsame.pending], hid'⟩
    · rcases mem_batches hb hb' with hin | rfl | hin
      · exact Or.inr ⟨b', by simp [hin], hid'⟩
      · obtain ⟨left, hleft, hmem⟩ := ht.kept id hid' hlive
        exact Or.inr ⟨left, by simp [hleft], hmem⟩
      · exact Or.inr ⟨b', by simp [hin], hid'⟩
  · dsimp only
    rw [hsame.pending, hsame.armed]
    exact ha.armed
  · dsimp only
    rw [hsame.disposing]
    exact fun id hid hlive => ha.disposing id hid (ht.live hlive)

theorem sound_resume {next : ReadCoalescer} {i : Nat}
    {f : ReadBatch → Except Unit (ReadCoalescer × List ReadBatch)}
    (hf : ∀ b q, f b = .ok q → TaskStep s b q) (hs : s.Sound h right)
    (hfits : ∀ b q, s.batches[i]? = some b → f b = .ok q → s.Tends h right b →
      (∀ b' ∈ q.2, q.1.Fits h right b'.phase) ∧
        ∀ c ∈ q.1.delivered, q.1.Answered h right c.1 c.2)
    (hok : s.resume i f = .ok next) : next.Sound h right := by
  obtain ⟨b, q, hb, hq, rfl⟩ := resume_eq_ok hok
  have ht := hf b q hq
  have htends := hs.batches b (List.mem_of_getElem? hb)
  have hsame := ht.sameQueue
  have hgrows := ht.grows
  obtain ⟨hleft, hdelivered⟩ := hfits b q hb hq htends
  have hall : Grows s { q.1 with
      batches := s.batches.take i ++ q.2 ++ s.batches.drop (i + 1) } :=
    ⟨hgrows.reads, hgrows.version, hgrows.failures⟩
  have hsame' : Grows q.1 { q.1 with
      batches := s.batches.take i ++ q.2 ++ s.batches.drop (i + 1) } := .of_eq rfl rfl rfl
  refine ⟨fun b' hb' id hid => ?_, fun b' hb' => ?_, fun id r hr => ?_, fun c hc => ?_⟩
  · exact (hs.pending b' (hsame.pending ▸ hb') id hid).grow hall
  · rcases List.mem_append.1 hb' with hb' | hb'
    · rcases List.mem_append.1 hb' with hb' | hb'
      · exact (hs.batches b' (List.mem_of_mem_take hb')).grow hall
      · obtain ⟨hkey, hsub⟩ := ht.reads b' hb'
        have howns : ∀ id ∈ b'.phase.reads, q.1.Owns b'.key id := by
          intro id hid
          rw [hkey]
          exact (htends.1 id (hsub hid)).grow hgrows
        exact Tends.grow hsame' ⟨howns, hleft b' hb'⟩
    · exact (hs.batches b' (List.mem_of_mem_drop hb')).grow hall
  · dsimp only at hr ⊢
    rw [hsame.reads] at hr
    rw [hsame.version]
    exact hs.since id r hr
  · exact (hdelivered c hc).grow hsame'

/-- A delivery of an answer leaves what was delivered answered. -/
theorem answered_deliver (hs : s.Sound h right) {id : Nat} {reply : CellReply}
    (hc : s.Answered h right id reply) :
    ∀ c ∈ (s.deliver id reply).delivered, s.Answered h right c.1 c.2 := by
  intro c hmem
  unfold deliver at hmem
  split_ifs at hmem
  · rcases List.mem_append.1 hmem with hmem | hmem
    · exact hs.delivered c hmem
    · obtain rfl := List.mem_singleton.1 hmem
      exact hc
  · exact hs.delivered c hmem

theorem fits_proceed (hs : s.Sound h right) {i : Nat} {b : ReadBatch}
    {q : ReadCoalescer × List ReadBatch} (hbuilds : s.Builds right (.go i))
    (hb : s.batches[i]? = some b) (hok : s.proceed b = .ok q) (ht : s.Tends h right b) :
    (∀ b' ∈ q.2, q.1.Fits h right b'.phase) ∧
      ∀ c ∈ q.1.delivered, q.1.Answered h right c.1 c.2 := by
  have hgrows := (taskStep_proceed hok).grows
  obtain ⟨-, hfits⟩ := ht
  unfold Builds built at hbuilds
  obtain ⟨key, phase⟩ := b
  unfold proceed at hok
  dsimp only at hok hbuilds hfits
  split at hok <;> cases hok
  · exact ⟨by simp [Fits], hs.delivered⟩
  · exact ⟨by simp, hs.delivered⟩
  · exact ⟨by simp [Fits], hs.delivered⟩
  · rename_i request
    refine ⟨fun b' hb' => ?_, hs.delivered⟩
    obtain rfl := List.mem_singleton.1 hb'
    intro id hid r hr
    rw [hb] at hbuilds
    exact hbuilds (key, id) (List.mem_map_of_mem hid) r hr
  · rename_i id reply cells later
    refine ⟨fun b' hb' => ?_, fun c hc => ?_⟩
    · obtain rfl := List.mem_singleton.1 hb'
      intro c hc
      exact (hfits c (List.mem_cons_of_mem _ hc)).grow hgrows
    · exact (answered_deliver hs (hfits (id, reply) List.mem_cons_self) c hc).grow hgrows
  · exact ⟨by simp [Fits], hs.delivered⟩
  · exact ⟨by simp, hs.delivered⟩
  · rename_i id later
    refine ⟨fun b' hb' => ?_, hs.delivered⟩
    obtain rfl := List.mem_singleton.1 hb'
    dsimp only
    split_ifs <;> trivial

/-- What the server has for a read in flight answers it. -/
theorem answered_valueOf (hs : s.Sound h right) {key : BatchKey} {header : Option String}
    {request : ReadRequest} (ht : s.Tends h right ⟨key, .flight header request⟩) {id : Nat}
    (hid : id ∈ request.reads) :
    s.Answered h right id (s.valueOf h header key.cube id) := by
  obtain ⟨howns, hfits⟩ := ht
  obtain ⟨r, hr, hkey⟩ := howns id (List.mem_append_left _ hid)
  refine ⟨r, hr, .inl ⟨header, s.version, hfits id hid r hr, hs.since id r hr, Nat.le_refl _, ?_⟩⟩
  unfold valueOf
  rw [hr, hkey]
  rfl

/-- The error of a batch of one read, and of one cell, is its own. -/
theorem fits_rejected {request : ReadRequest} {message : String}
    (hone : ∀ id, request.reads = [id] → s.Answered h right id (.error message)) :
    s.Fits h right (request.rejected message) := by
  unfold ReadRequest.rejected
  split
  · intro c hc
    obtain rfl := List.mem_singleton.1 hc
    exact hone _ rfl
  · trivial
  · intro c hc
    obtain rfl := List.mem_singleton.1 hc
    exact hone _ rfl

/-- The values of an answer are matched with the reads by their positions. -/
theorem fits_answer (hs : s.Sound h right) {key : BatchKey} {header : Option String}
    {request : ReadRequest} (ht : s.Tends h right ⟨key, .flight header request⟩) :
    s.Fits h right (s.answer h header key.cube request) := by
  unfold answer
  rcases hvalues : request.reads.mapM (s.valueOf h header key.cube) with message | values
  · refine fits_rejected fun id hid => ?_
    have hvalue : s.valueOf h header key.cube id = .error message := by
      rw [hid, List.mapM_cons] at hvalues
      rcases hv : s.valueOf h header key.cube id with e | v
      · rw [hv] at hvalues
        exact congrArg Except.error (Except.error.inj hvalues)
      · rw [hv] at hvalues
        cases hvalues
    rw [← hvalue]
    exact answered_valueOf hs ht (hid ▸ List.mem_singleton_self id)
  · intro c hc
    obtain ⟨i, hi, rfl⟩ := List.mem_mapIdx.1 hc
    obtain ⟨hlength, hget⟩ := List.forall₂_iff_get.1 (mapM_eq_ok.1 hvalues)
    have hi' : i < values.length := hlength ▸ hi
    have hvalue := hget i hi hi'
    rw [List.getElem?_eq_getElem hi']
    dsimp only [Option.getD_some]
    simp only [List.get_eq_getElem] at hvalue
    rw [← hvalue]
    exact answered_valueOf hs ht (List.getElem_mem hi)

theorem fits_served (hs : s.Sound h right) {b : ReadBatch} {q : ReadCoalescer × List ReadBatch}
    (hok : s.served h b = .ok q) (ht : s.Tends h right b) :
    (∀ b' ∈ q.2, q.1.Fits h right b'.phase) ∧
      ∀ c ∈ q.1.delivered, q.1.Answered h right c.1 c.2 := by
  obtain ⟨key, phase⟩ := b
  unfold served at hok
  dsimp only at hok
  split at hok <;> cases hok
  refine ⟨fun b' hb' => ?_, hs.delivered⟩
  obtain rfl := List.mem_singleton.1 hb'
  exact fits_answer hs ht

theorem fits_failed (hs : s.Sound h right) {message : String} {b : ReadBatch}
    {q : ReadCoalescer × List ReadBatch} (hok : s.failed message b = .ok q)
    (ht : s.Tends h right b) :
    (∀ b' ∈ q.2, q.1.Fits h right b'.phase) ∧
      ∀ c ∈ q.1.delivered, q.1.Answered h right c.1 c.2 := by
  have hgrows := (taskStep_failed hok).grows
  obtain ⟨key, phase⟩ := b
  unfold failed at hok
  dsimp only at hok
  split at hok <;> cases hok
  rename_i header request
  refine ⟨fun b' hb' => ?_, fun c hc => (hs.delivered c hc).grow hgrows⟩
  obtain rfl := List.mem_singleton.1 hb'
  refine fits_rejected fun id hid => ?_
  obtain ⟨r, hr, -⟩ := ht.1 id (List.mem_append_left _ (hid ▸ List.mem_singleton_self id))
  exact ⟨r, hr, .inr ⟨message, List.mem_cons_self, rfl⟩⟩

/-! ## A step of the queue -/

theorem key_of_finds {key : BatchKey} {b : ReadBucket} (hfinds : s.finds h key b = true) :
    b.key = key := by
  unfold finds keyEquals at hfinds
  simp only [Bool.and_eq_true, decide_eq_true_eq] at hfinds
  obtain ⟨-, ⟨hclient, hcube⟩, -⟩ := hfinds
  obtain ⟨hash, ⟨client, cube⟩, reads⟩ := b
  obtain ⟨client', cube'⟩ := key
  dsimp only at hclient hcube
  rw [hclient, hcube]

/-- A read of a bucket is the one entered, under its key, or was there before. -/
theorem of_mem_enter {key : BatchKey} {id i : Nat} {l : List ReadBucket} {b : ReadBucket}
    (hb : b ∈ s.enter h key id l) (hi : i ∈ b.reads) :
    (i = id ∧ b.key = key) ∨ ∃ b' ∈ l, b'.key = b.key ∧ i ∈ b'.reads := by
  induction l with
  | nil =>
    obtain rfl := List.mem_singleton.1 hb
    exact Or.inl ⟨List.mem_singleton.1 hi, rfl⟩
  | cons b' rest ih =>
    unfold enter at hb
    split_ifs at hb with hfinds
    · rcases List.mem_cons.1 hb with rfl | hb
      · rcases List.mem_append.1 hi with hi | hi
        · exact Or.inr ⟨b', List.mem_cons_self, rfl, hi⟩
        · exact Or.inl ⟨List.mem_singleton.1 hi, key_of_finds hfinds⟩
      · exact Or.inr ⟨b, List.mem_cons_of_mem _ hb, rfl, hi⟩
    · rcases List.mem_cons.1 hb with rfl | hb
      · exact Or.inr ⟨b, List.mem_cons_self, rfl, hi⟩
      · refine (ih hb).imp_right ?_
        rintro ⟨b'', hb'', hkey, hi''⟩
        exact ⟨b'', List.mem_cons_of_mem _ hb'', hkey, hi''⟩

/-- The read entered is there, with those that were. -/
theorem mem_enter {key : BatchKey} {id i : Nat} {l : List ReadBucket}
    (hi : i = id ∨ ∃ b ∈ l, i ∈ b.reads) : ∃ b ∈ s.enter h key id l, i ∈ b.reads := by
  induction l with
  | nil =>
    obtain rfl | ⟨b, hb, -⟩ := hi
    · exact ⟨_, List.mem_singleton_self _, List.mem_singleton_self _⟩
    · cases hb
  | cons b' rest ih =>
    unfold enter
    split_ifs
    · obtain rfl | ⟨b, hb, hi⟩ := hi
      · exact ⟨_, List.mem_cons_self, List.mem_append_right _ (List.mem_singleton_self _)⟩
      · rcases List.mem_cons.1 hb with rfl | hb
        · exact ⟨_, List.mem_cons_self, List.mem_append_left _ hi⟩
        · exact ⟨b, List.mem_cons_of_mem _ hb, hi⟩
    · have hrest : (i = id ∨ ∃ b ∈ rest, i ∈ b.reads) → ∃ b ∈ b' :: s.enter h key id rest,
          i ∈ b.reads := by
        intro hi
        obtain ⟨b, hb, hi⟩ := ih hi
        exact ⟨b, List.mem_cons_of_mem _ hb, hi⟩
      obtain rfl | ⟨b, hb, hi⟩ := hi
      · exact hrest (Or.inl rfl)
      · rcases List.mem_cons.1 hb with rfl | hb
        · exact ⟨b, List.mem_cons_self, hi⟩
        · exact hrest (Or.inr ⟨b, hb, hi⟩)

theorem of_mem_leave {key : BatchKey} {id i : Nat} {l : List ReadBucket} {b : ReadBucket}
    (hb : b ∈ s.leave h key id l) (hi : i ∈ b.reads) :
    ∃ b' ∈ l, b'.key = b.key ∧ i ∈ b'.reads := by
  induction l with
  | nil => cases hb
  | cons b' rest ih =>
    unfold leave at hb
    split_ifs at hb
    · exact ⟨b, List.mem_cons_of_mem _ hb, rfl, hi⟩
    · rcases List.mem_cons.1 hb with rfl | hb
      · exact ⟨b', List.mem_cons_self, rfl, List.mem_of_mem_erase hi⟩
      · exact ⟨b, List.mem_cons_of_mem _ hb, rfl, hi⟩
    · rcases List.mem_cons.1 hb with rfl | hb
      · exact ⟨b, List.mem_cons_self, rfl, hi⟩
      · obtain ⟨b'', hb'', hkey, hi''⟩ := ih hb
        exact ⟨b'', List.mem_cons_of_mem _ hb'', hkey, hi''⟩

/-- Only the read that is taken out goes. -/
theorem mem_leave {key : BatchKey} {id i : Nat} {l : List ReadBucket} (hne : i ≠ id)
    (hi : ∃ b ∈ l, i ∈ b.reads) : ∃ b ∈ s.leave h key id l, i ∈ b.reads := by
  obtain ⟨b, hb, hi⟩ := hi
  induction l with
  | nil => cases hb
  | cons b' rest ih =>
    unfold leave
    split_ifs with hfinds hempty
    · rcases List.mem_cons.1 hb with rfl | hb
      · have hin := (List.mem_erase_of_ne hne).2 hi
        rw [hempty] at hin
        cases hin
      · exact ⟨b, hb, hi⟩
    · rcases List.mem_cons.1 hb with rfl | hb
      · exact ⟨_, List.mem_cons_self, (List.mem_erase_of_ne hne).2 hi⟩
      · exact ⟨b, List.mem_cons_of_mem _ hb, hi⟩
    · rcases List.mem_cons.1 hb with rfl | hb
      · exact ⟨b, List.mem_cons_self, hi⟩
      · obtain ⟨b'', hb'', hi''⟩ := ih hb
        exact ⟨b'', List.mem_cons_of_mem _ hb'', hi''⟩

/-! ## Every step -/

theorem sound_enqueue (hs : s.Sound h right) {id : Nat} (hnew : s.reads[id]? = none)
    (key : BatchKey) (coord : ReadCoord) : (s.enqueue h id key coord).Sound h right := by
  have hread : (s.enqueue h id key coord).reads[id]? =
      some ⟨key, coord, s.sandbox key.client, s.version⟩ := by
    unfold enqueue
    exact FinMap.get_insert_self _ _ _
  have hgrows : Grows s (s.enqueue h id key coord) := by
    refine ⟨fun i r hr => ?_, Nat.le_refl _, List.Subset.refl _⟩
    unfold enqueue
    dsimp only
    rw [FinMap.get_insert, if_neg]
    · exact hr
    · rintro rfl
      rw [hnew] at hr
      cases hr
  refine ⟨fun b hb i hi => ?_, fun b hb => (hs.batches b hb).grow hgrows, fun i r hr => ?_,
    fun c hc => (hs.delivered c hc).grow hgrows⟩
  · rcases of_mem_enter hb hi with ⟨rfl, hkey⟩ | ⟨b', hb', hkey, hi'⟩
    · exact ⟨_, hread, hkey.symm⟩
    · rw [← hkey]
      exact (hs.pending b' hb' i hi').grow hgrows
  · unfold enqueue at hr ⊢
    dsimp only at hr ⊢
    rw [FinMap.get_insert] at hr
    split_ifs at hr
    · rw [← Option.some.inj hr]
    · exact hs.since i r hr

/-- A state that keeps what is served and what waits is sound where its
buckets and tasks are those of a sound one. -/
theorem Sound.of_frame {next : ReadCoalescer} (hs : s.Sound h right) (hgrows : Grows s next)
    (hreads : next.reads = s.reads)
    (hpending : ∀ b ∈ next.pending, ∀ i ∈ b.reads, ∃ b' ∈ s.pending, b'.key = b.key ∧ i ∈ b'.reads)
    (hbatches : next.batches = s.batches) (hdelivered : next.delivered = s.delivered) :
    next.Sound h right := by
  refine ⟨fun b hb i hi => ?_, fun b hb => ?_, fun i r hr => ?_, fun c hc => ?_⟩
  · obtain ⟨b', hb', hkey, hi'⟩ := hpending b hb i hi
    rw [← hkey]
    exact (hs.pending b' hb' i hi').grow hgrows
  · exact (hs.batches b (hbatches ▸ hb)).grow hgrows
  · exact (hs.since i r (hreads ▸ hr)).trans hgrows.version
  · exact (hs.delivered c (hdelivered ▸ hc)).grow hgrows

theorem sound_flush (hs : s.Sound h right) : s.flush.Sound h right := by
  have hgrows : Grows s s.flush := .of_eq rfl rfl rfl
  refine ⟨fun b hb => (by cases hb), fun b hb => ?_, hs.since,
    fun c hc => (hs.delivered c hc).grow hgrows⟩
  rcases List.mem_append.1 hb with hb | hb
  · exact (hs.batches b hb).grow hgrows
  · obtain ⟨bucket, hbucket, rfl⟩ := List.mem_map.1 hb
    refine ⟨fun id hid => ?_, trivial⟩
    rw [ReadPhase.reads_sweep, List.nil_append] at hid
    exact (hs.pending bucket hbucket id hid).grow hgrows

/-- **Step.** A step whose requests are built under right headers keeps what
is served and delivered right. -/
theorem sound_step {x : ReadStep} {next : ReadCoalescer} (hs : s.Sound h right)
    (hbuilds : s.Builds right x) (hok : s.step h x = .ok next) : next.Sound h right := by
  unfold step at hok
  cases x with
  | subscribe id key coord =>
    dsimp only at hok
    split_ifs at hok with hnew
    obtain rfl := Except.ok.inj hok
    exact sound_enqueue hs (Option.isNone_iff_eq_none.1 hnew) key coord
  | dispose id =>
    dsimp only at hok
    split_ifs at hok
    obtain rfl := Except.ok.inj hok
    have hframe : ∃ state, s.markCancelled id = { s with state := state } := by
      unfold markCancelled
      split_ifs
      · exact ⟨_, rfl⟩
      · exact ⟨s.state, rfl⟩
    obtain ⟨state, hframe⟩ := hframe
    rw [hframe]
    exact hs.of_frame (.of_eq rfl rfl rfl) rfl (fun b hb i hi => ⟨b, hb, rfl, hi⟩) rfl rfl
  | remove id =>
    dsimp only at hok
    rcases hr : s.reads[id]? with - | r
    · rw [hr] at hok
      cases hok
    · rw [hr] at hok
      dsimp only at hok
      split_ifs at hok
      obtain rfl := Except.ok.inj hok
      exact hs.of_frame (.of_eq rfl rfl rfl) rfl (fun b hb i hi => of_mem_leave hb hi) rfl rfl
  | onSandboxChanged client text =>
    obtain rfl := Except.ok.inj hok
    exact hs.of_frame (.of_eq rfl rfl rfl) rfl (fun b hb i hi => ⟨b, hb, rfl, hi⟩) rfl rfl
  | flush =>
    dsimp only at hok
    split_ifs at hok
    obtain rfl := Except.ok.inj hok
    exact sound_flush hs
  | commit =>
    obtain rfl := Except.ok.inj hok
    exact hs.of_frame ⟨fun _ _ hr => hr, Nat.le_succ _, List.Subset.refl _⟩ rfl
      (fun b hb i hi => ⟨b, hb, rfl, hi⟩) rfl rfl
  | serve i =>
    exact sound_resume (fun _ _ => taskStep_served) hs (fun b q _ hq => fits_served hs hq) hok
  | fail i message =>
    exact sound_resume (fun _ _ => taskStep_failed) hs (fun b q _ hq => fits_failed hs hq) hok
  | go i =>
    exact sound_resume (fun _ _ => taskStep_proceed) hs
      (fun b q hb hq => fits_proceed hs hbuilds hb hq) hok

/-- What keeps the reads, the states and the deliveries, and what waits, keeps
the account. -/
theorem Accounted.of_frame {next : ReadCoalescer} (ha : s.Accounted)
    (hreads : next.reads = s.reads) (hstate : next.state = s.state)
    (hwaits : ∀ id, s.state id = .live → s.Waits id → next.Waits id)
    (harmed : next.pending ≠ [] → next.armed = true)
    (hdisposing : next.disposing ⊆ s.disposing) (hdelivered : next.delivered = s.delivered) :
    next.Accounted := by
  refine ⟨fun id hid hlive => ?_, harmed, fun id hid => ?_, ?_, fun id => ?_⟩
  · rw [hreads] at hid
    rw [hstate] at hlive
    exact hwaits id hlive (ha.kept id hid hlive)
  · rw [hstate]
    exact ha.disposing id (hdisposing hid)
  · rw [hdelivered]
    exact ha.once
  · rw [hdelivered, hstate]
    exact ha.marked id

theorem accounted_enqueue (ha : s.Accounted) (id : Nat) (key : BatchKey) (coord : ReadCoord) :
    (s.enqueue h id key coord).Accounted := by
  refine ⟨fun i hi hlive => ?_, fun _ => rfl, ha.disposing, ha.once, ha.marked⟩
  by_cases hid : i = id
  · exact Or.inl (mem_enter (Or.inl hid))
  · unfold enqueue at hi
    dsimp only at hi
    rw [FinMap.get_insert, if_neg (Ne.symm hid)] at hi
    rcases ha.kept i hi hlive with hin | hin
    · exact Or.inl (mem_enter (Or.inr hin))
    · exact Or.inr hin

/-- A mark is for a read that is live, so no delivered one is marked. -/
theorem accounted_dispose (ha : s.Accounted) (id : Nat) :
    Accounted { s.markCancelled id with disposing := id :: s.disposing } := by
  unfold markCancelled
  split_ifs with hid
  · refine ⟨fun i hi hlive => ?_, ha.armed, fun i hi => ?_, ha.once, fun i => ?_⟩
    · dsimp only at hlive
      rw [Function.update_apply] at hlive
      split_ifs at hlive
      exact ha.kept i hi hlive
    · dsimp only
      rw [Function.update_apply]
      split_ifs with heq
      · simp
      · exact ha.disposing i ((List.mem_cons.1 hi).resolve_left heq)
    · dsimp only
      rw [Function.update_apply, ha.marked i]
      split_ifs with heq
      · rw [heq, hid]
        simp
      · exact Iff.rfl
  · refine ⟨ha.kept, ha.armed, fun i hi => ?_, ha.once, ha.marked⟩
    rcases List.mem_cons.1 hi with rfl | hi
    · exact hid
    · exact ha.disposing i hi

/-- A removal takes a read that is no longer live. -/
theorem accounted_cancel (ha : s.Accounted) {id : Nat} (hid : id ∈ s.disposing) (key : BatchKey) :
    (s.cancel h id key).Accounted := by
  refine ha.of_frame rfl rfl (fun i hlive hwaits => ?_) (fun hne => ?_)
    List.erase_subset rfl
  · have hne : i ≠ id := by
      rintro rfl
      exact ha.disposing i hid hlive
    rcases hwaits with hin | hin
    · exact Or.inl (mem_leave hne hin)
    · exact Or.inr hin
  · refine ha.armed fun hempty => hne ?_
    unfold cancel
    dsimp only
    rw [hempty]
    rfl

theorem accounted_flush (ha : s.Accounted) : s.flush.Accounted := by
  refine ha.of_frame rfl rfl (fun i hlive hwaits => ?_) (fun hne => absurd rfl hne)
    (List.Subset.refl _) rfl
  rcases hwaits with ⟨b, hb, hi⟩ | ⟨b, hb, hi⟩
  · exact Or.inr ⟨⟨b.key, .sweep [] b.reads⟩,
      List.mem_append_right _ (List.mem_map_of_mem hb), hi⟩
  · exact Or.inr ⟨b, List.mem_append_left _ hb, hi⟩

/-- **Step.** Every step keeps the account of the reads. -/
theorem accounted_step {x : ReadStep} {next : ReadCoalescer} (ha : s.Accounted)
    (hok : s.step h x = .ok next) : next.Accounted := by
  unfold step at hok
  cases x with
  | subscribe id key coord =>
    dsimp only at hok
    split_ifs at hok
    obtain rfl := Except.ok.inj hok
    exact accounted_enqueue ha id key coord
  | dispose id =>
    dsimp only at hok
    split_ifs at hok
    obtain rfl := Except.ok.inj hok
    exact accounted_dispose ha id
  | remove id =>
    dsimp only at hok
    rcases hr : s.reads[id]? with - | r
    · rw [hr] at hok
      cases hok
    · rw [hr] at hok
      dsimp only at hok
      split_ifs at hok with hid
      obtain rfl := Except.ok.inj hok
      exact accounted_cancel ha hid r.key
  | onSandboxChanged client text =>
    obtain rfl := Except.ok.inj hok
    exact ha.of_frame rfl rfl (fun _ _ hw => hw) ha.armed (List.Subset.refl _) rfl
  | flush =>
    dsimp only at hok
    split_ifs at hok
    obtain rfl := Except.ok.inj hok
    exact accounted_flush ha
  | commit =>
    obtain rfl := Except.ok.inj hok
    exact ha.of_frame rfl rfl (fun _ _ hw => hw) ha.armed (List.Subset.refl _) rfl
  | serve i => exact accounted_resume (fun _ _ => taskStep_served) ha hok
  | fail i message => exact accounted_resume (fun _ _ => taskStep_failed) ha hok
  | go i => exact accounted_resume (fun _ _ => taskStep_proceed) ha hok

/-! ## Runs -/

theorem sound_start (sandbox : Nat → Option String) : (start sandbox).Sound h right := by
  refine ⟨fun b hb => (by cases hb), fun b hb => (by cases hb), fun id r hr => ?_,
    fun c hc => (by cases hc)⟩
  simp [start] at hr

theorem accounted_start (sandbox : Nat → Option String) : (start sandbox).Accounted := by
  refine ⟨fun id hid => ?_, fun hne => absurd rfl hne, fun id hid => (by cases hid),
    List.nodup_nil, fun id => ?_⟩
  · simp [start] at hid
  · simp [start]

/-- **Run.** Every run keeps the account, and one whose requests are built
under right headers delivers what is right. -/
theorem run_keeps (sandbox : Nat → Option String) {steps : List ReadStep}
    (hbuilds : Meets (step h) (Builds right) (start sandbox) steps) :
    (run h sandbox steps).Sound h right ∧ (run h sandbox steps).Accounted :=
  run_invariant (I := fun s : ReadCoalescer => s.Sound h right ∧ s.Accounted)
    (fun _ _ _ hs hx hok => ⟨sound_step hs.1 hx hok, accounted_step hs.2 hok⟩)
    ⟨sound_start sandbox, accounted_start sandbox⟩ hbuilds

theorem run_accounted (sandbox : Nat → Option String) (steps : List ReadStep) :
    (run h sandbox steps).Accounted := by
  have hbuilds : Meets (step h) (Builds fun _ _ => True) (start sandbox) steps :=
    meets_of_forall (fun _ _ _ _ _ _ => trivial) _ steps
  exact (run_keeps sandbox hbuilds).2

theorem TaskStep.cancelled_iff {b : ReadBatch} {q : ReadCoalescer × List ReadBatch}
    (ht : TaskStep s b q) (id : Nat) : q.1.state id = .cancelled ↔ s.state id = .cancelled := by
  rcases ht.effect with heq | ⟨i, reply, heq⟩ | ⟨message, heq⟩
  · rw [heq]
  · rw [heq]
    unfold deliver
    split_ifs with hlive
    · dsimp only
      rw [Function.update_apply]
      split_ifs with hid
      · rw [hid, hlive]
        simp
      · exact Iff.rfl
    · exact Iff.rfl
  · rw [heq]

theorem resume_cancelled_iff {next : ReadCoalescer} {i : Nat}
    {f : ReadBatch → Except Unit (ReadCoalescer × List ReadBatch)}
    (hf : ∀ b q, f b = .ok q → TaskStep s b q) (hok : s.resume i f = .ok next) (id : Nat) :
    next.state id = .cancelled ↔ s.state id = .cancelled := by
  obtain ⟨b, q, -, hq, rfl⟩ := resume_eq_ok hok
  exact (hf b q hq).cancelled_iff id

theorem markCancelled_iff (id i : Nat) :
    (s.markCancelled i).state id = .cancelled ↔
      s.state id = .cancelled ∨ i = id ∧ s.state id = .live := by
  unfold markCancelled
  split_ifs with hlive
  · dsimp only
    rw [Function.update_apply]
    split_ifs with hid
    · rw [hid, hlive]
      simp
    · simp [Ne.symm hid]
  · refine ⟨Or.inl, ?_⟩
    rintro (hid | ⟨rfl, hid⟩)
    · exact hid
    · exact absurd hid hlive

/-- A read is cancelled by its own unsubscription, while it is live, and stays
so. -/
theorem cancelled_iff {x : ReadStep} {next : ReadCoalescer} (hok : s.step h x = .ok next)
    (id : Nat) : next.state id = .cancelled ↔
      s.state id = .cancelled ∨ x = .dispose id ∧ s.state id = .live := by
  -- only the disposal of the read itself cancels it
  have hsame : ∀ {x : ReadStep}, x ≠ .dispose id →
      (next.state id = .cancelled ↔ s.state id = .cancelled) →
      (next.state id = .cancelled ↔
        s.state id = .cancelled ∨ x = .dispose id ∧ s.state id = .live) := by
    intro x hx hstate
    rw [hstate]
    exact ⟨Or.inl, fun hc => hc.resolve_right fun hd => hx hd.1⟩
  unfold step at hok
  cases x with
  | subscribe i key coord =>
    dsimp only at hok
    split_ifs at hok
    obtain rfl := Except.ok.inj hok
    exact hsame (by simp) Iff.rfl
  | dispose i =>
    dsimp only at hok
    split_ifs at hok
    obtain rfl := Except.ok.inj hok
    rw [ReadStep.dispose.injEq]
    exact markCancelled_iff id i
  | remove i =>
    dsimp only at hok
    rcases hr : s.reads[i]? with - | r
    · rw [hr] at hok
      cases hok
    · rw [hr] at hok
      dsimp only at hok
      split_ifs at hok
      obtain rfl := Except.ok.inj hok
      exact hsame (by simp) Iff.rfl
  | onSandboxChanged client text =>
    obtain rfl := Except.ok.inj hok
    exact hsame (by simp) Iff.rfl
  | flush =>
    dsimp only at hok
    split_ifs at hok
    obtain rfl := Except.ok.inj hok
    exact hsame (by simp) Iff.rfl
  | commit =>
    obtain rfl := Except.ok.inj hok
    exact hsame (by simp) Iff.rfl
  | serve i => exact hsame (by simp) (resume_cancelled_iff (fun _ _ => taskStep_served) hok id)
  | fail i message =>
    exact hsame (by simp) (resume_cancelled_iff (fun _ _ => taskStep_failed) hok id)
  | go i => exact hsame (by simp) (resume_cancelled_iff (fun _ _ => taskStep_proceed) hok id)

variable (h)

/-- A read is unsubscribed before it is delivered. -/
def Unsubscribed (sandbox : Nat → Option String) (steps : List ReadStep) (id : Nat) : Prop :=
  ∃ before after, steps = before ++ ReadStep.dispose id :: after ∧
    (run h sandbox before).reads[id]?.isSome = true ∧
    id ∉ (run h sandbox before).delivered.map Prod.fst

variable {h}

theorem run_append (sandbox : Nat → Option String) (steps : List ReadStep) (x : ReadStep) :
    run h sandbox (steps ++ [x]) = call (step h) (run h sandbox steps) x := by
  simp [run, runCalls]

theorem unsubscribed_append (sandbox : Nat → Option String) (steps : List ReadStep) (x : ReadStep)
    (id : Nat) :
    Unsubscribed h sandbox (steps ++ [x]) id ↔ Unsubscribed h sandbox steps id ∨
      x = .dispose id ∧ (run h sandbox steps).reads[id]?.isSome = true ∧
        id ∉ (run h sandbox steps).delivered.map Prod.fst := by
  constructor
  · rintro ⟨before, after, heq, hid, hnot⟩
    rcases List.eq_nil_or_concat after with rfl | ⟨after, y, rfl⟩
    · obtain ⟨rfl, hx⟩ := List.append_inj' heq rfl
      exact Or.inr ⟨List.head_eq_of_cons_eq hx, hid, hnot⟩
    · rw [List.concat_eq_append, ← List.cons_append, ← List.append_assoc] at heq
      obtain ⟨rfl, -⟩ := List.append_inj' heq rfl
      exact Or.inl ⟨before, after, rfl, hid, hnot⟩
  · rintro (⟨before, after, rfl, hid, hnot⟩ | ⟨rfl, hid, hnot⟩)
    · exact ⟨before, after ++ [x], by simp, hid, hnot⟩
    · exact ⟨steps, [], rfl, hid, hnot⟩

/-- The reads that are unsubscribed first are those cancelled. -/
theorem unsubscribed_iff (sandbox : Nat → Option String) (steps : List ReadStep) (id : Nat) :
    Unsubscribed h sandbox steps id ↔ (run h sandbox steps).state id = .cancelled := by
  induction steps using List.reverseRecOn with
  | nil =>
    refine ⟨?_, fun hc => (by cases hc)⟩
    rintro ⟨before, after, heq, -⟩
    simp at heq
  | append_singleton steps x ih =>
    have hmarked := (run_accounted (h := h) sandbox steps).marked id
    rw [unsubscribed_append, ih, run_append]
    unfold call
    rcases hok : (run h sandbox steps).step h x with e | next
    · refine ⟨fun hc => hc.resolve_right ?_, Or.inl⟩
      rintro ⟨rfl, hid, -⟩
      unfold step at hok
      dsimp only at hok
      rw [if_pos hid] at hok
      cases hok
    · dsimp only
      rw [cancelled_iff hok id]
      constructor
      · rintro (hc | ⟨rfl, -, hnot⟩)
        · exact Or.inl hc
        · rw [hmarked] at hnot
          cases hstate : (run h sandbox steps).state id with
          | live => exact Or.inr ⟨rfl, rfl⟩
          | cancelled => exact Or.inl rfl
          | delivered => exact absurd hstate hnot
      · rintro (hc | ⟨rfl, hlive⟩)
        · exact Or.inl hc
        · refine Or.inr ⟨rfl, ?_, ?_⟩
          · unfold step at hok
            dsimp only at hok
            by_contra hid
            rw [if_neg hid] at hok
            cases hok
          · rw [hmarked, hlive]
            simp

/-! ## Every read its own cell -/

/-- A header names the sandbox that was active when a read was subscribed. -/
def OwnSandbox (header : Option String) (r : PendingRead) : Prop :=
  header = sandboxHeader r.sandbox

instance OwnSandbox.decidable (header : Option String) (r : PendingRead) :
    Decidable (OwnSandbox header r) :=
  inferInstanceAs (Decidable (header = sandboxHeader r.sandbox))

instance Builds.decidable (s : ReadCoalescer) (x : ReadStep) : Decidable (Builds OwnSandbox s x) :=
  inferInstanceAs (Decidable (∀ p ∈ s.built x, ∀ r ∈ s.reads[p.2]?, OwnSandbox _ r))

variable (h right)

/-- What coalesced reads promise: each read is delivered at most once, and an
unsubscribed one never; what is delivered answers the read; the coalescer comes
to rest by its own steps; and then every other read is delivered. -/
structure Delivers (sandbox : Nat → Option String) (steps : List ReadStep) : Prop where
  once : ((run h sandbox steps).delivered.map Prod.fst).Nodup
  unsubscribed : ∀ id, Unsubscribed h sandbox steps id →
    id ∉ (run h sandbox steps).delivered.map Prod.fst
  answered : ∀ c ∈ (run h sandbox steps).delivered,
    (run h sandbox steps).Answered h right c.1 c.2
  moves : ¬(run h sandbox steps).Quiet →
    ∃ x : ReadStep, x.isOwn = true ∧ ∃ next, (run h sandbox steps).step h x = .ok next
  ends : ∀ x next, x.isOwn = true → (run h sandbox steps).step h x = .ok next →
    next.work < (run h sandbox steps).work
  all : (run h sandbox steps).Quiet → ∀ id : Nat,
    (run h sandbox steps).reads[id]?.isSome = true → ¬Unsubscribed h sandbox steps id →
      id ∈ (run h sandbox steps).delivered.map Prod.fst

variable {h right}

theorem delivers_run (sandbox : Nat → Option String) {steps : List ReadStep}
    (hbuilds : Meets (step h) (Builds right) (start sandbox) steps) :
    Delivers h right sandbox steps := by
  obtain ⟨hsound, haccounted⟩ := run_keeps sandbox hbuilds
  refine ⟨haccounted.once, fun id hid => ?_, hsound.delivered, exists_own_step,
    fun x next => work_step, fun hquiet id hid hnot => ?_⟩
  · rw [haccounted.marked, (unsubscribed_iff sandbox steps id).1 hid]
    simp
  · rw [unsubscribed_iff] at hnot
    obtain ⟨hunarmed, hbatches⟩ := hquiet
    rw [haccounted.marked]
    cases hstate : (run h sandbox steps).state id with
    | live =>
      -- a live read waits, and nothing waits
      rcases haccounted.kept id hid hstate with ⟨b, hb, -⟩ | ⟨b, hb, -⟩
      · have harmed := haccounted.armed (List.ne_nil_of_mem hb)
        rw [hunarmed] at harmed
        cases harmed
      · rw [hbatches] at hb
        cases hb
    | cancelled => exact absurd hstate hnot
    | delivered => rfl

/-- Whatever the sandboxes do, every read is delivered what the server had for
its own cube and coordinate, under some sandbox. -/
theorem delivers_own_cell (sandbox : Nat → Option String) (steps : List ReadStep) :
    Delivers h (fun _ _ => True) sandbox steps :=
  delivers_run sandbox (meets_of_forall (fun _ _ _ _ _ _ => trivial) _ steps)

/-- **Reads.** Where every request is built under the sandbox in which its
reads were subscribed, each read is delivered its own cell. -/
theorem coalesced (h : ExcelHost) (sandbox : Nat → Option String) (steps : List ReadStep)
    (hbuilds : Meets (step h) (Builds OwnSandbox) (start sandbox) steps) :
    Delivers h OwnSandbox sandbox steps :=
  delivers_run sandbox hbuilds

/-! ## A switch within the window -/

/-- A server whose cells show the sandbox they are read in. -/
def echoHost : ExcelHost := ⟨fun _ _ _ => 0, fun _ header _ _ => .ok (some (header.getD "base"))⟩

def northRead : ReadStep := .subscribe 1 ⟨0, "Sales"⟩ [("Region", "North")]

/-- The task of one bucket looks for its reads, builds its request and pushes
the answer. -/
def oneTask : List ReadStep := [.flush, .go 0, .go 0, .go 0, .serve 0, .go 0, .go 0, .go 0]

/-- A server that shows the sandbox too, and knows no region Nowhere. -/
def regionHost : ExcelHost where
  hash _ _ _ := 0
  server _ header _ coord :=
    if coord = [("Region", "Nowhere")] then .error "unknown member"
    else .ok (some (header.getD "base"))

/-- A step of the first task, some times. -/
def goes (n : Nat) : List ReadStep := List.replicate n (.go 0)

/-- Four reads of one cube and one of another. Two are unsubscribed, one
before and one after the timer fires. The server rejects the batch of the two
that are left of the four, and each of them is read again. -/
def rejectedBatch : List ReadStep := List.flatten
  [[.onSandboxChanged 0 " A ", northRead, .subscribe 2 ⟨0, "Sales"⟩ [("Region", "South")],
      .subscribe 3 ⟨0, "Sales"⟩ [("Region", "Nowhere")],
      .subscribe 4 ⟨0, "Sales"⟩ [("Region", "East")],
      .subscribe 5 ⟨0, "Stock"⟩ [("Region", "North")], .dispose 2, .remove 2, .flush, .dispose 4],
    goes 5, [.serve 0], goes 2, [.serve 0], goes 4, [.serve 0], goes 3, goes 3,
    [.commit, .serve 0], goes 3, [.remove 4, .onSandboxChanged 0 "B"]]

theorem coalesced_north :
    Delivers regionHost OwnSandbox (fun _ => none) rejectedBatch ∧
      (run regionHost (fun _ => none) rejectedBatch).delivered =
        [(1, .ok (some "A")), (3, .error "unknown member"), (5, .ok (some "A"))] ∧
      (run regionHost (fun _ => none) rejectedBatch).batches.length = 0 :=
  ⟨coalesced regionHost _ _ (by decide +kernel), by decide +kernel, by decide +kernel⟩

/-- A read that was subscribed in one sandbox is delivered the value of
another, to which its client is switched before the timer fires. -/
theorem not_delivers_switched :
    ¬∀ (h : ExcelHost) (sandbox : Nat → Option String) (steps : List ReadStep),
      Delivers h OwnSandbox sandbox steps := by
  intro hall
  have hdelivers := hall echoHost (fun _ => none)
    ([.onSandboxChanged 0 "A", northRead, .onSandboxChanged 0 "B"] ++ oneTask)
  obtain ⟨r, hr, hanswer⟩ := hdelivers.answered (1, .ok (some "B")) (List.mem_singleton_self _)
  have hread : (run echoHost (fun _ => none)
      ([.onSandboxChanged 0 "A", northRead, .onSandboxChanged 0 "B"] ++ oneTask)).reads[1]? =
        some ⟨⟨0, "Sales"⟩, [("Region", "North")], some "A", 0⟩ := rfl
  obtain rfl := Option.some.inj (hread.symm.trans hr)
  rcases hanswer with ⟨header, n, hown, -, -, hserver⟩ | ⟨message, hmessage, -⟩
  · rw [show header = some "A" from hown] at hserver
    exact absurd (Option.some.inj (Except.ok.inj hserver)) (by decide)
  · cases hmessage

end ReadCoalescer

end Epiphany

import Epiphany.Core.CubeRuns
/-!
# Compaction — the string pool without its dead strings

Overwritten and cleared strings stay in the pool. Compaction drops them and
renumbers the rest, in the store and in the pool at once. No read changes,
the pool keeps what is read and its order, and there is then nothing left to
compact (`compactStringPool_lossless`).
-/

namespace Epiphany

/-! ## The pool -/

namespace StringPool

variable {p : StringPool} {live : List Nat}

/-- Compaction keeps the live ids in order. -/
theorem byId_compact (p : StringPool) (live : List Nat) :
    (p.compact live).1.byId = ((List.range p.byId.length).filter (· ∈ live)).map p.get := by
  have hfold : ∀ (l : List Nat) (st : StringPool × List (Option Nat)),
      (l.foldl (p.compactStep live) st).1.byId =
        st.1.byId ++ (l.filter (· ∈ live)).map p.get := by
    intro l
    induction l with
    | nil => exact fun st => (List.append_nil _).symm
    | cons id l ih =>
      intro st
      rw [List.foldl_cons, ih, compactStep]
      by_cases h : id ∈ live
      · rw [if_pos h, List.filter_cons_of_pos (by simpa using h), List.map_cons]
        exact List.append_assoc _ _ _
      · rw [if_neg h, List.filter_cons_of_neg (by simpa using h)]
  exact hfold _ _

theorem map_get_range (p : StringPool) : (List.range p.byId.length).map p.get = p.byId := by
  refine List.ext_getElem (by simp) fun i h1 h2 => ?_
  rw [List.getElem_map, List.getElem_range]
  exact get_eq (List.getElem?_eq_getElem h2)

theorem WF.nodup (hp : p.WF) : p.byId.Nodup := by
  refine List.nodup_iff_injective_getElem.2 fun i j hij => Fin.ext ?_
  have hsame : p.byId[i] = p.byId[j] := hij
  have hi := (hp _ _).2 (List.getElem?_eq_getElem i.2)
  have hj := (hp _ _).2 (List.getElem?_eq_getElem j.2)
  rw [show p.byId[(i : Nat)] = p.byId[(j : Nat)] from hsame] at hi
  exact Option.some.inj (hi.symm.trans hj)

/-- A text stands under one id. -/
theorem WF.id_eq (hp : p.WF) {i j : Nat} {s : String} (hi : p.byId[i]? = some s)
    (hj : p.byId[j]? = some s) : i = j :=
  Option.some.inj (((hp s i).2 hi).symm.trans ((hp s j).2 hj))

end StringPool

namespace Cube

variable {c : Cube}

/-! ## Live strings -/

/-- The ids that the cells of a cube hold, once each. -/
def liveIds (c : Cube) : List Nat :=
  ((c.stringCells.entries c.layout c.rank).map Prod.snd).dedup

/-- A string that some cell reads as. -/
def Live (c : Cube) (s : String) : Prop := ∃ coord, c.getString coord = .ok (some s)

theorem getString_eq_ok {coord : Coord} {o : Option String} : c.getString coord = .ok o ↔
    InRange c.dimensions coord ∧
      (c.stringCells.get c.layout coord).map c.stringPool.get = o := by
  unfold getString
  rw [bind_eq_ok]
  simp only [checkCoord_eq_ok, Except.ok.injEq, exists_and_left]
  exact and_congr_right fun _ => ⟨fun ⟨_, h⟩ => h, fun h => ⟨(), h⟩⟩

theorem mem_liveIds (hc : c.WF) {id : Nat} : id ∈ c.liveIds ↔
    ∃ a, InRange c.dimensions a ∧ c.stringCells.get c.layout a = some id := by
  unfold liveIds
  rw [List.mem_dedup, List.mem_map, hc.layout]
  constructor
  · rintro ⟨⟨a, i⟩, hmem, rfl⟩
    exact ⟨a, (CellStore.mem_entries hc.strings).1 hmem⟩
  · rintro ⟨a, h⟩
    exact ⟨(a, id), (CellStore.mem_entries hc.strings).2 h, rfl⟩

/-- A live id has a text. -/
theorem byId_of_mem_liveIds (hc : c.WF) {id : Nat} (h : id ∈ c.liveIds) :
    ∃ s, c.stringPool.byId[id]? = some s := by
  obtain ⟨a, ha, hget⟩ := (mem_liveIds hc).1 h
  obtain ⟨-, s, hs, -⟩ := hc.text a id ha hget
  exact ⟨s, hs⟩

theorem live_iff (hc : c.WF) {s : String} :
    c.Live s ↔ ∃ id ∈ c.liveIds, c.stringPool.byId[id]? = some s := by
  constructor
  · rintro ⟨a, h⟩
    obtain ⟨ha, hread⟩ := getString_eq_ok.1 h
    obtain ⟨id, hget, rfl⟩ := Option.map_eq_some_iff.1 hread
    have hid := (mem_liveIds hc).2 ⟨a, ha, hget⟩
    obtain ⟨t, ht⟩ := byId_of_mem_liveIds hc hid
    exact ⟨id, hid, by rw [StringPool.get_eq ht, ht]⟩
  · rintro ⟨id, hid, hs⟩
    obtain ⟨a, ha, hget⟩ := (mem_liveIds hc).1 hid
    refine ⟨a, getString_eq_ok.2 ⟨ha, ?_⟩⟩
    rw [hget, Option.map_some, StringPool.get_eq hs]

/-- As many live ids as strings: every string is live, and conversely. -/
theorem length_liveIds (hc : c.WF) : c.liveIds.length = c.stringPool.byId.length ↔
    ∀ i < c.stringPool.byId.length, i ∈ c.liveIds := by
  have hsub : c.liveIds ⊆ List.range c.stringPool.byId.length := fun id hid => by
    obtain ⟨s, hs⟩ := byId_of_mem_liveIds hc hid
    exact List.mem_range.2 (List.getElem?_eq_some_iff.1 hs).1
  have hnodup : c.liveIds.Nodup := List.nodup_dedup _
  have hperm := hnodup.subperm hsub
  constructor
  · intro hlen i hi
    have hle : (List.range c.stringPool.byId.length).length ≤ c.liveIds.length := by
      rw [List.length_range, hlen]
    exact (hperm.perm_of_length_le hle).mem_iff.2 (List.mem_range.2 hi)
  · intro hall
    have hback := List.nodup_range.subperm fun i hi => hall i (List.mem_range.1 hi)
    have h1 := hperm.length_le
    have h2 := hback.length_le
    rw [List.length_range] at h1 h2
    omega

/-! ## After a compaction -/

theorem compactStringPool_eq (c : Cube) : c.compactStringPool =
    if c.liveIds.length = c.stringPool.byId.length then c
    else
      { c with
        stringPool := (c.stringPool.compact c.liveIds).1
        stringCells := (CellStore.new c.layout.narrow).putAll c.layout
          ((c.stringCells.entries c.layout c.rank).map fun e =>
            (e.1, ((c.stringPool.compact c.liveIds).2[e.2]?.join).getD 0)) } := rfl

/-- The strings kept are the live ones, in the order they stood in. -/
theorem byId_compactStringPool (hc : c.WF) :
    c.compactStringPool.stringPool.byId.Sublist c.stringPool.byId ∧
      ∀ s, s ∈ c.compactStringPool.stringPool.byId ↔ c.Live s := by
  rw [compactStringPool_eq]
  split_ifs with hsame
  · have hall := (length_liveIds hc).1 hsame
    refine ⟨List.Sublist.refl _, fun s => ?_⟩
    rw [live_iff hc, List.mem_iff_getElem?]
    constructor
    · rintro ⟨i, hi⟩
      exact ⟨i, hall i (List.getElem?_eq_some_iff.1 hi).1, hi⟩
    · rintro ⟨i, -, hi⟩
      exact ⟨i, hi⟩
  · dsimp only
    rw [StringPool.byId_compact]
    constructor
    · have hsub := (List.filter_sublist (p := (· ∈ c.liveIds))
        (l := List.range c.stringPool.byId.length)).map c.stringPool.get
      rw [StringPool.map_get_range] at hsub
      exact hsub
    · intro s
      rw [live_iff hc]
      simp only [List.mem_map, List.mem_filter, List.mem_range, decide_eq_true_eq]
      constructor
      · rintro ⟨i, ⟨-, hlive⟩, rfl⟩
        obtain ⟨t, ht⟩ := byId_of_mem_liveIds hc hlive
        exact ⟨i, hlive, by rw [StringPool.get_eq ht, ht]⟩
      · rintro ⟨i, hlive, hs⟩
        exact ⟨i, ⟨(List.getElem?_eq_some_iff.1 hs).1, hlive⟩, StringPool.get_eq hs⟩

theorem compactStringPool_frame (c : Cube) : c.compactStringPool.name = c.name ∧
    c.compactStringPool.dimensions = c.dimensions ∧ c.compactStringPool.layout = c.layout ∧
    c.compactStringPool.cells = c.cells := by
  rw [compactStringPool_eq]
  split_ifs
  · exact ⟨rfl, rfl, rfl, rfl⟩
  · exact ⟨rfl, rfl, rfl, rfl⟩

/-- Numbers are read without the pool. -/
theorem get_compactStringPool (c : Cube) (coord : Coord) :
    c.compactStringPool.getLeaf coord = c.getLeaf coord ∧
      c.compactStringPool.get coord = c.get coord := by
  rw [compactStringPool_eq]
  split_ifs
  · exact ⟨rfl, rfl⟩
  · exact ⟨rfl, rfl⟩

theorem getString_compactStringPool (hc : c.WF) (coord : Coord) :
    c.compactStringPool.getString coord = c.getString coord := by
  obtain ⟨-, hdims, hlayout, -⟩ := compactStringPool_frame c
  obtain ⟨-, -, -, -, htext⟩ := compactStringPool_spec hc
  have hcheck : c.compactStringPool.checkCoord coord = c.checkCoord coord := by
    unfold checkCoord rank
    rw [hdims]
  unfold getString
  rw [hcheck]
  rcases hok : c.checkCoord coord with e | u
  · rfl
  · have ha := checkCoord_eq_ok.1 hok
    have hread := htext coord ha
    rw [hlayout, ← hread]

/-- After a compaction every string is live. -/
theorem compactStringPool_idem (hc : c.WF) :
    c.compactStringPool.compactStringPool = c.compactStringPool := by
  have hc' := (compactStringPool_spec hc).1
  rw [compactStringPool_eq c.compactStringPool, if_pos]
  rw [length_liveIds hc']
  intro i hi
  obtain ⟨s, hs⟩ : ∃ s, c.compactStringPool.stringPool.byId[i]? = some s :=
    ⟨_, List.getElem?_eq_getElem hi⟩
  obtain ⟨a, ha⟩ := ((byId_compactStringPool hc).2 s).1 (List.mem_of_getElem? hs)
  rw [← getString_compactStringPool hc] at ha
  obtain ⟨j, hj, hjs⟩ := (live_iff hc').1 ⟨a, ha⟩
  rw [hc'.pool.id_eq hs hjs]
  exact hj

/-- **Compaction loses nothing.** Of a cube that any calls have led to it
changes no read, of text or of numbers; the pool is left with the strings that
are read, once each, in the order they stood in, and with the index of them;
and compacting again changes nothing. -/
theorem compactStringPool_lossless (name : String) (defs : List DimensionDef)
    (ops : List CubeOp) (start c : Cube) (h : Cube.build name defs = .ok start)
    (hrun : ops.foldl Cube.apply start = c) :
    (∀ coord, c.compactStringPool.getString coord = c.getString coord ∧
      c.compactStringPool.getLeaf coord = c.getLeaf coord ∧
      c.compactStringPool.get coord = c.get coord) ∧
    (c.compactStringPool.stringPool.byId.Sublist c.stringPool.byId ∧
      c.compactStringPool.stringPool.byId.Nodup ∧
      (∀ s, s ∈ c.compactStringPool.stringPool.byId ↔ c.Live s) ∧
      ∀ (s : String) (i : Nat), c.compactStringPool.stringPool.ids[s]? = some i ↔
        c.compactStringPool.stringPool.byId[i]? = some s) ∧
    c.compactStringPool.compactStringPool = c.compactStringPool := by
  have hc : c.WF := hrun ▸ (WF.build h).calls ops
  have hc' := (compactStringPool_spec hc).1
  obtain ⟨hsub, hlive⟩ := byId_compactStringPool hc
  exact ⟨fun coord => ⟨getString_compactStringPool hc coord, get_compactStringPool c coord⟩,
    ⟨hsub, hc'.pool.nodup, hlive, hc'.pool⟩, compactStringPool_idem hc⟩

/-- A note overwritten and one deleted with its region: one string is left of
three. -/
theorem compactStringPool_sales : ∃ start c : Cube, Cube.build "Sales" salesDefs = .ok start ∧
    [CubeOp.setString [0, 1] "early", .setString [0, 1] "late", .setString [1, 1] "lost",
      .deleteElement "Region" "South"].foldl Cube.apply start = c ∧
    c.stringPool.byId.length = 3 ∧ c.compactStringPool.stringPool.byId = ["late"] ∧
    c.compactStringPool.compactStringPool = c.compactStringPool := by
  obtain ⟨start, hstart, hok⟩ := exists_ok_of_any (x := Cube.build "Sales" salesDefs)
    (p := fun start =>
      let c := [CubeOp.setString [0, 1] "early", .setString [0, 1] "late",
        .setString [1, 1] "lost", .deleteElement "Region" "South"].foldl Cube.apply start
      c.stringPool.byId.length = 3 ∧ c.compactStringPool.stringPool.byId = ["late"])
    (by decide +kernel)
  obtain ⟨hlen, hbyId⟩ := of_decide_eq_true hok
  exact ⟨start, _, hstart, rfl, hlen, hbyId,
    (compactStringPool_lossless "Sales" salesDefs _ start _ hstart rfl).2.2⟩

end Cube

end Epiphany

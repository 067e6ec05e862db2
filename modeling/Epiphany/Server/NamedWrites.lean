import Epiphany.Server.Writes
/-!
# Named writes — a request writes the cells that it names

What a request names it names on a snapshot. Where it binds the version of
the snapshot, it writes the cells of those names or is refused. A batch that
binds none, and an outcome, write where the names were: those are the cells
of the names as long as no named member has moved (`namedWrites_run`).
-/

namespace Epiphany

namespace Cube

/-! ## The cell of some names -/

/-- The cell at a coordinate has the member names that are given, by
dimension. -/
structure NamesCell (c : Cube) (names : FinMap String String) (a : Coord) : Prop where
  size : names.size = c.rank
  members : List.Forall₂
    (fun i dim => ∃ n, names[dim.name]? = some n ∧ dim.nameAt i = some n) a c.dimensions

/-- The coordinate that names resolve to. -/
def indicesOf (c : Cube) (names : FinMap String String) : Option Coord :=
  (c.resolve names).toOption.map Resolved.indices

variable {c : Cube} {names : FinMap String String} {a : Coord}

theorem resolveComponent_eq_ok {dim : Dimension} {r r' : Resolved} :
    resolveComponent names r dim = .ok r' ↔ ∃ n i, names[dim.name]? = some n ∧
      dim.indexOf n = some i ∧ r' = ⟨r.indices ++ [i],
        r.hasString || dim.kindAt i = some .string,
        r.allLeaf && dim.kindAt i ≠ some .consolidated⟩ := by
  constructor
  · intro h
    obtain ⟨n, hn, h⟩ := bind_eq_ok.1 h
    obtain ⟨i, hi, h⟩ := bind_eq_ok.1 h
    rw [okOr_eq_ok] at hn hi
    exact ⟨n, i, hn, hi, (Except.ok.inj h).symm⟩
  · rintro ⟨n, i, hn, hi, rfl⟩
    exact bind_eq_ok.2 ⟨n, okOr_eq_ok.2 hn, bind_eq_ok.2 ⟨i, okOr_eq_ok.2 hi, rfl⟩⟩

/-- Names that resolve do so component by component. -/
theorem components_of_resolve {dims : List Dimension} {r r' : Resolved}
    (h : dims.foldlM (resolveComponent names) r = .ok r') :
    ∃ a, r'.indices = r.indices ++ a ∧ List.Forall₂
      (fun i dim => ∃ n, names[dim.name]? = some n ∧ dim.indexOf n = some i) a dims := by
  induction dims generalizing r with
  | nil =>
    obtain rfl := Except.ok.inj h
    exact ⟨[], (List.append_nil _).symm, List.Forall₂.nil⟩
  | cons dim dims ih =>
    obtain ⟨next, hnext, h⟩ := bind_eq_ok.1 h
    obtain ⟨n, i, hn, hi, rfl⟩ := resolveComponent_eq_ok.1 hnext
    obtain ⟨a, ha, hrest⟩ := ih h
    exact ⟨i :: a, by rw [ha, List.append_assoc, List.singleton_append],
      List.Forall₂.cons ⟨n, hn, hi⟩ hrest⟩

/-- Components that are found one by one resolve, and are classified by their
kinds. -/
theorem foldlM_resolveComponent {dims : List Dimension}
    (h : List.Forall₂ (fun i dim => ∃ n, names[dim.name]? = some n ∧ dim.indexOf n = some i)
      a dims) (r : Resolved) :
    dims.foldlM (resolveComponent names) r = .ok ⟨r.indices ++ a,
      r.hasString || (a.zip dims).any fun x => x.2.kindAt x.1 = some .string,
      r.allLeaf && (a.zip dims).all fun x => x.2.kindAt x.1 ≠ some .consolidated⟩ := by
  induction h generalizing r with
  | nil => simp [pure, Except.pure]
  | @cons i dim a dims hfirst _ ih =>
    obtain ⟨n, hn, hi⟩ := hfirst
    refine bind_eq_ok.2 ⟨_, resolveComponent_eq_ok.2 ⟨n, i, hn, hi, rfl⟩, ?_⟩
    rw [ih]
    simp [Bool.or_assoc, Bool.and_assoc]

/-- **Names resolve to the cell of these names.** -/
theorem indicesOf_eq_some (hdims : ∀ d ∈ c.dimensions, d.WF) :
    c.indicesOf names = some a ↔ c.NamesCell names a := by
  have hname : ∀ {l : Coord} {dims : List Dimension}, (∀ d ∈ dims, d.WF) →
      (List.Forall₂ (fun i dim => ∃ n, names[dim.name]? = some n ∧ dim.indexOf n = some i) l dims ↔
        List.Forall₂ (fun i dim => ∃ n, names[dim.name]? = some n ∧ dim.nameAt i = some n)
          l dims) := by
    intro l dims hwf
    induction dims generalizing l with
    | nil => rw [List.forall₂_nil_right_iff, List.forall₂_nil_right_iff]
    | cons dim dims ih =>
      rw [List.forall₂_cons_right_iff, List.forall₂_cons_right_iff]
      refine exists_congr fun i => exists_congr fun rest => and_congr ?_ (and_congr
        (ih fun d hd => hwf d (List.mem_cons_of_mem _ hd)) Iff.rfl)
      refine exists_congr fun n => and_congr Iff.rfl ?_
      exact Dimension.indexOf_iff (hwf dim List.mem_cons_self)
  unfold indicesOf resolve
  constructor
  · intro h
    obtain ⟨r, hr, rfl⟩ := Option.map_eq_some_iff.1 h
    split_ifs at hr with hsize
    · cases hr
    · rw [not_not] at hsize
      rcases hfold : c.dimensions.foldlM (resolveComponent names) ⟨[], false, true⟩ with e | r'
      · rw [hfold] at hr
        cases hr
      · rw [hfold] at hr
        cases hr
        obtain ⟨a, ha, hall⟩ := components_of_resolve hfold
        rw [List.nil_append] at ha
        exact ⟨hsize, (hname hdims).1 (ha ▸ hall)⟩
  · rintro ⟨hsize, hmembers⟩
    rw [if_neg (not_not.2 hsize), foldlM_resolveComponent ((hname hdims).2 hmembers)]
    exact congrArg some (List.nil_append a)

/-- The write of a cell is at the coordinate of its names. -/
theorem indicesOf_of_buildWrite {cell : PlannedCell} {write : CellWrite}
    (h : c.buildWrite cell = .ok write) : c.indicesOf cell.coord = some write.coord := by
  obtain ⟨r, hr, h⟩ := bind_eq_ok.1 h
  have hindices : c.indicesOf cell.coord = some r.indices := by
    unfold indicesOf
    rw [hr]
    rfl
  split_ifs at h
  · obtain rfl := Except.ok.inj h
    exact hindices
  · obtain ⟨number, -, h⟩ := bind_eq_ok.1 h
    obtain rfl := Except.ok.inj h
    exact hindices

end Cube

/-! ## What a request names -/

namespace WriteRequest

/-- The cells a request names one by one. -/
def cells : WriteRequest → List PlannedCell
  | .writeCell cell _ => [cell]
  | .batch cells _ _ => cells
  | .outcome changes => changes.cells
  | .spread _ _ _ _ | .commitSandbox _ _ => []

/-- The writes are at the cells that a request names: at those one by one,
or at leaves under the one whose value is spread. -/
def Names (request : WriteRequest) (c : Cube) (writes : List Cube.CellWrite) : Prop :=
  match request with
  | .spread target _ _ _ => ∃ t, c.NamesCell target t ∧ ∀ w ∈ writes, c.LeafUnder t w.coord
  | .commitSandbox _ _ => True
  | request => List.Forall₂ (fun cell w => c.NamesCell cell.coord w.coord) request.cells writes

end WriteRequest

namespace WriteServer

variable (s : WriteServer)

/-- A request changes the cells it writes to, as it writes them, and nothing
else: of the cube, or of one sandbox. -/
structure Changes (s : WriteServer) (p : Pending) (m : Model) : Prop where
  base : p.sandbox = none →
    Cube.Wrote s.store.cube p.writes m.cube ∧ m.sandboxes = s.store.sandboxes
  sandbox : ∀ name, p.sandbox = some name → m.cube = s.store.cube ∧
    ∃ sb sb', s.store.sandboxes[name]? = some sb ∧
      m.sandboxes = s.store.sandboxes.insert name sb' ∧ sb'.stringCells = sb.stringCells ∧
      ∀ a : Coord, sb'.cells[a]? = (Cube.lastNumber p.writes a).or sb.cells[a]?

/-- **An accepted request writes the cells it names**, in the dimensions as
they are then. -/
def WritesNamed (s : WriteServer) (p : Pending) (m : Model) : Prop :=
  match p.request with
  | .commitSandbox _ _ => True
  | request => request.Names s.store.cube p.writes ∧ s.Changes p m

/-- The members that names give are where they were. -/
def unmoved (p : Pending) (names : FinMap String String) : Bool :=
  s.store.cube.indicesOf names = p.resolvedOn.indicesOf names

/-- **No named member moves** under a request that does not require its
version. A spread does require it. -/
def namesStay (p : Pending) : Bool :=
  match p.request with
  | .writeCell cell _ => s.undisturbed p || s.unmoved p cell.coord
  | .batch cells _ _ => s.undisturbed p || cells.all fun cell => s.unmoved p cell.coord
  | .outcome changes => changes.cells.all fun cell => s.unmoved p cell.coord
  | .spread _ _ _ _ => !s.ahead
  | .commitSandbox _ _ => true

variable {s : WriteServer} {p : Pending} {m : Model} {updated : Nat}

/-! ## A request when it is resolved -/

/-- A spread writes to leaves under its target, and to none that a rule
computes. -/
theorem leafUnder_of_expand {caller : Principal} {sandbox : Option Sandbox} {target : Coord}
    {value : Fixed} {method : SpreadMethod} {expanded : List (Coord × Fixed)}
    (h : s.expand caller sandbox target value method = .ok expanded) :
    ∀ e ∈ expanded, s.published.cube.LeafUnder target e.1 ∧
      s.env.covers s.published e.1 = false := by
  intro e he
  unfold expand spreadLeaves at h
  split at h
  · cases h
  · cases h
    cases he
  · rename_i kept hkept
    obtain ⟨hin, -, hrows, -, -⟩ := Spread.targets_some hkept
    dsimp only [Id.run, bind, pure] at h
    split at h
    · cases h
    · cases h
      have hmem := (List.of_mem_zip he).1
      rw [hrows, List.mem_filter, Bool.not_eq_true'] at hmem
      exact ⟨Cube.leafUnder_iff.2 ⟨hin, hmem.1⟩, hmem.2⟩

/-- What holds of a request by the names it gives. -/
structure ResolvedByName (p : Pending) : Prop where
  dims : ∀ d ∈ p.resolvedOn.dimensions, d.WF
  cube : (∀ changes, p.request ≠ .outcome changes) → p.resolvedOn = p.snapshot.cube
  names : p.request.Names p.resolvedOn p.writes
  base : ∀ target value method selector, p.request = .spread target value method selector →
    p.base = some p.version

theorem names_of_buildWrite {c : Cube} (hdims : ∀ d ∈ c.dimensions, d.WF)
    {cells : List PlannedCell} {writes : List Cube.CellWrite}
    (h : cells.mapM c.buildWrite = .ok writes) :
    List.Forall₂ (fun cell w => c.NamesCell cell.coord w.coord) cells writes :=
  (mapM_eq_ok.1 h).imp fun _ _ hw =>
    (Cube.indicesOf_eq_some hdims).1 (Cube.indicesOf_of_buildWrite hw)

theorem resolves_names : Resolves ResolvedByName where
  grown := fun p h => ⟨h.dims, h.cube, h.names, h.base⟩
  resolve := by
    intro s caller request p hwf h
    have hnospread : ∀ {request : WriteRequest} {base : Option Nat} {version : Nat},
        (∀ target value method selector, request ≠ .spread target value method selector) →
          ∀ target value method selector, request = .spread target value method selector →
            base = some version :=
      fun hne _ _ _ _ heq => absurd heq (hne _ _ _ _)
    cases h with
    | cell cell selector write hwrite =>
      refine ⟨hwf.dims, fun _ => rfl, ?_, hnospread fun _ _ _ _ heq => (by cases heq)⟩
      exact List.Forall₂.cons
        ((Cube.indicesOf_eq_some hwf.dims).1 (Cube.indicesOf_of_buildWrite hwrite)) List.Forall₂.nil
    | spread target value method selector sandbox resolved expanded htarget hexpanded =>
      have hnames : s.published.cube.NamesCell target resolved.indices := by
        refine (Cube.indicesOf_eq_some hwf.dims).1 ?_
        unfold Cube.indicesOf
        rw [htarget]
        rfl
      refine ⟨hwf.dims, fun _ => rfl, ⟨resolved.indices, hnames, fun w hw => ?_⟩,
        fun _ _ _ _ _ => rfl⟩
      obtain ⟨e, he, rfl⟩ := List.mem_map.1 hw
      exact (leafUnder_of_expand hexpanded e he).1
    | batch cells base selector writes hwrites =>
      exact ⟨hwf.dims, fun _ => rfl, names_of_buildWrite hwf.dims hwrites,
        hnospread fun _ _ _ _ heq => (by cases heq)⟩
    | outcome changes preview added writes growth hpreview hwrites =>
      have hdims := (hwf.extendSchema hpreview).dims
      exact ⟨hdims, fun hne => absurd rfl (hne changes), names_of_buildWrite hdims hwrites,
        hnospread fun _ _ _ _ heq => (by cases heq)⟩
    | sandbox name base =>
      exact ⟨hwf.dims, fun _ => rfl, trivial, hnospread fun _ _ _ _ heq => (by cases heq)⟩

/-! ## A request when it is accepted -/

theorem get_stage (sb : Sandbox) (writes : List Cube.CellWrite) (updated : Nat) (a : Coord) :
    (sb.stage writes updated).cells[a]? = (Cube.lastNumber writes a).or sb.cells[a]? := by
  induction writes generalizing sb with
  | nil => rfl
  | cons write writes ih =>
    -- the first write, and the others over what it leaves
    show (({ sb with cells := (sb.stage [write] updated).cells } : Sandbox).stage writes
      updated).cells[a]? = _
    rw [ih, Cube.lastNumber_cons write writes, Option.or_assoc]
    refine congrArg _ ?_
    cases write with
    | leaf coord value =>
      show (sb.cells.insert coord value)[a]? = _
      simp only [Cube.lastNumber, List.foldl_cons, List.foldl_nil, FinMap.get_insert]
      split_ifs
      · rfl
      · rfl
    | str coord value => rfl

/-- An accepted request changes what it writes to. -/
theorem changes_of_work (hwf : s.store.cube.WF) (hdata : ∀ name base,
    p.request ≠ .commitSandbox name base) (h : s.work p updated = .ok m) : s.Changes p m := by
  unfold work at h
  split at h
  · rename_i name base heq
    exact absurd heq (hdata name base)
  · split at h
    · rename_i name hname
      obtain ⟨sb, hsb, h⟩ := bind_eq_ok.1 h
      obtain ⟨⟨⟩, -, h⟩ := bind_eq_ok.1 h
      obtain ⟨⟨⟩, -, h⟩ := bind_eq_ok.1 h
      obtain rfl := Except.ok.inj h
      rw [okOr_eq_ok] at hsb
      refine ⟨fun hnone => ?_, fun other hother => ?_⟩
      · rw [hname] at hnone
        cases hnone
      · rw [hname] at hother
        cases hother
        exact ⟨rfl, sb, _, hsb, rfl, rfl, get_stage sb p.writes updated⟩
    · rename_i hnone
      refine ⟨fun _ => wrote_setBatch hwf h, fun name hname => ?_⟩
      rw [hnone] at hname
      cases hname

theorem ResolvedByName.names_of_unmoved (h : ResolvedByName p) (hwf : s.store.cube.WF)
    {cells : List PlannedCell} (hcells : ∀ cell ∈ cells, s.unmoved p cell.coord = true)
    (hnames : List.Forall₂ (fun cell w => p.resolvedOn.NamesCell cell.coord w.coord) cells
      p.writes) :
    List.Forall₂ (fun cell w => s.store.cube.NamesCell cell.coord w.coord) cells p.writes := by
  refine ((List.forall₂_and_left _ _).2 ⟨hcells, hnames⟩).imp fun cell w hcell => ?_
  obtain ⟨hmoved, hw⟩ := hcell
  have hstay := of_decide_eq_true hmoved
  rw [← Cube.indicesOf_eq_some hwf.dims, hstay, Cube.indicesOf_eq_some h.dims]
  exact hw

/-- **An accepted request whose names stay writes what it names.** -/
theorem Consistent.writesNamed (h : s.Consistent ResolvedByName) (hp : p ∈ s.pending)
    (haccept : s.accept p updated = .ok m) (hstay : s.namesStay p = true) : s.WritesNamed p m := by
  obtain ⟨-, hfact⟩ := h.known p hp
  have hwork := (accept_eq_ok haccept).2.2
  have hnames := hfact.names
  have hsame : (∀ changes, p.request ≠ .outcome changes) → s.undisturbed p = true →
      s.store.cube = p.resolvedOn := fun hne hundisturbed => by
    rw [h.store_eq_of_undisturbed hp haccept hundisturbed, hfact.cube hne]
  have hchanges : (∀ name base, p.request ≠ .commitSandbox name base) → s.Changes p m :=
    fun hdata => changes_of_work h.wf hdata hwork
  unfold WritesNamed
  unfold namesStay at hstay
  cases hrequest : p.request with
  | writeCell cell selector =>
    rw [hrequest] at hstay hnames hsame hchanges
    refine ⟨?_, hchanges fun _ _ heq => (by cases heq)⟩
    rcases Bool.or_eq_true_iff.1 hstay with hundisturbed | hmoved
    · rw [hsame (fun _ heq => (by cases heq)) hundisturbed]
      exact hnames
    · refine hfact.names_of_unmoved h.wf (fun other hother => ?_) hnames
      rw [List.mem_singleton.1 hother]
      exact hmoved
  | batch cells base selector =>
    rw [hrequest] at hstay hnames hsame hchanges
    refine ⟨?_, hchanges fun _ _ heq => (by cases heq)⟩
    rcases Bool.or_eq_true_iff.1 hstay with hundisturbed | hmoved
    · rw [hsame (fun _ heq => (by cases heq)) hundisturbed]
      exact hnames
    · exact hfact.names_of_unmoved h.wf (List.all_eq_true.1 hmoved) hnames
  | outcome changes =>
    rw [hrequest] at hstay hnames hchanges
    exact ⟨hfact.names_of_unmoved h.wf (List.all_eq_true.1 hstay) hnames,
      hchanges fun _ _ heq => (by cases heq)⟩
  | spread target value method selector =>
    rw [hrequest] at hstay hnames hsame hchanges
    refine ⟨?_, hchanges fun _ _ heq => (by cases heq)⟩
    have hundisturbed : s.undisturbed p = true := by
      rw [undisturbed, hfact.base target value method selector hrequest]
      simpa using hstay
    rw [hsame (fun _ heq => (by cases heq)) hundisturbed]
    exact hnames
  | commitSandbox name base => trivial

/-- **What a request writes is what it names**: in a run in which no named
member moves under a request that does not require its version, every
accepted write changes the cells of the names it gave, and nothing else. -/
theorem writesNamed_run {start : WriteServer} (hs : start.Initial) {steps : List WriteStep}
    (h : AllAccepted (fun s p _ => s.namesStay p = true) start steps) :
    AllAccepted WritesNamed start steps :=
  hs.consistent.allAccepted_mono resolves_names
    (fun _ _ _ _ hcons hp haccept hstay => hcons.writesNamed hp haccept hstay) h

/-- Each write is where the names of its cell lead. -/
def atNames (s : WriteServer) (p : Pending) : Bool :=
  match p.request with
  | .spread _ _ _ _ | .commitSandbox _ _ => true
  | request => request.cells.map (fun cell => s.store.cube.indicesOf cell.coord) =
      p.writes.map fun w => some w.coord

theorem WritesNamed.atNames (h : s.WritesNamed p m) (hwf : s.store.cube.WF) :
    s.atNames p = true := by
  have hmap : ∀ {cells : List PlannedCell} {writes : List Cube.CellWrite},
      List.Forall₂ (fun cell w => s.store.cube.NamesCell cell.coord w.coord) cells writes →
        cells.map (fun cell => s.store.cube.indicesOf cell.coord) =
          writes.map fun w => some w.coord := by
    intro cells writes hall
    induction hall with
    | nil => rfl
    | cons hfirst _ ih =>
      rw [List.map_cons, List.map_cons, ih, (Cube.indicesOf_eq_some hwf.dims).2 hfirst]
  unfold WritesNamed at h
  unfold WriteServer.atNames
  cases hrequest : p.request with
  | spread target value method selector => rfl
  | commitSandbox name base => rfl
  | writeCell cell selector =>
    rw [hrequest] at h
    exact decide_eq_true (hmap h.1)
  | batch cells base selector =>
    rw [hrequest] at h
    exact decide_eq_true (hmap h.1)
  | outcome changes =>
    rw [hrequest] at h
    exact decide_eq_true (hmap h.1)

/-- A batch that requires no version, and a member that is added behind those
it names before it is committed. -/
def appendedBetween : List WriteStep :=
  [.receive ann (.batch [amountOf "South" "12"] none none),
    .edit (.insertElementAt "Region" "West" .leaf .atEnd) true, .commit 0 0 true]

theorem writesNamed_appendedBetween :
    AllAccepted WritesNamed salesDesk appendedBetween ∧
      ((runCalls WriteServer.step salesDesk appendedBetween).store.cube.leafValue [1, 0]).toScaled =
        120000 :=
  ⟨writesNamed_run initial_salesDesk
    (show AllAccepted (fun s p _ => s.namesStay p = true) salesDesk appendedBetween by
      decide +kernel), by decide +kernel⟩

/-- The member is added before them. -/
def insertedBetween : List WriteStep :=
  [.receive ann (.batch [amountOf "South" "12"] none none),
    .edit (.insertElementAt "Region" "West" .leaf (.before "South")) true, .commit 0 0 true]

/-- The new member gets what was meant for the one that was named. -/
theorem not_writesNamed_insertedBetween :
    salesDesk.Initial ∧ ¬ AllAccepted WritesNamed salesDesk insertedBetween := by
  refine ⟨initial_salesDesk, fun h => ?_⟩
  have hnames : AllAccepted (fun s p _ => s.atNames p = true) salesDesk insertedBetween :=
    initial_salesDesk.consistent.allAccepted_mono resolves_names
      (fun _ _ _ _ hcons _ _ hnamed => hnamed.atNames hcons.wf) h
  revert hnames
  decide +kernel

end WriteServer

end Epiphany

import Epiphany.Server.AutomationDocs
/-!
# Automation text — written and read back

Each record is read back from its table, whatever is left out of it, so the
automation objects are read back from their document. A text has every integer
of a timeout, a period and a port, so the objects that requests build are
written and read back, and so is what is read from any text (`roundTrips`).
-/

namespace Epiphany

open Document

/-! ## Numbers -/

def ConnectionSpec.timeoutMs : ConnectionSpec → Nat
  | .command spec => spec.timeoutMs
  | .http spec => spec.timeoutMs
  | .sql spec => spec.timeoutMs

/-- Whether a port has sixteen bits. -/
def ConnectionSpec.PortFits : ConnectionSpec → Prop
  | .sql spec => spec.port < 2 ^ 16
  | _ => True

/-- Whether the numbers of a connection are of their machine types. -/
structure ConnectionSpec.Fits (spec : ConnectionSpec) : Prop where
  port : spec.PortFits
  timeout : spec.timeoutMs < 2 ^ 64

def Trigger.period : Trigger → Nat
  | .interval everyMillis => everyMillis

namespace ConnectionDoc

/-- Whether the numbers of a record are of their machine types. -/
structure Fits (d : ConnectionDoc) : Prop where
  port : d.port < 2 ^ 16
  timeout : d.timeoutMs < 2 ^ 64

end ConnectionDoc

/-- A property of the connections inside a flow's record. -/
def FlowInputDoc.All (P : ConnectionDoc → Prop) (d : FlowInputDoc) : Prop :=
  ∀ c, d.connection = some c → P c

def FlowDoc.All (P : ConnectionDoc → Prop) (d : FlowDoc) : Prop := ∀ i ∈ d.inputs, i.All P

namespace AutomationDoc

/-- A property of all connections. -/
structure All (P : ConnectionDoc → Prop) (d : AutomationDoc) : Prop where
  flows : ∀ f ∈ d.flows, f.All P
  connections : ∀ c ∈ d.connections, P c

def PeriodsFit (d : AutomationDoc) : Prop := ∀ j ∈ d.jobs, j.everyMillis < 2 ^ 64

end AutomationDoc

/-! ## Pairs of texts -/

theorem HeaderDoc.ofToml_record (d : HeaderDoc) : HeaderDoc.ofToml (record d.fields) = .ok d := by
  simp only [ofToml, bind_eq_ok]
  exact ⟨_, rfl, _, (required_pair (by decide) _ _).1, _, (required_pair (by decide) _ _).2, rfl⟩

theorem AuthDoc.ofToml_record (d : AuthDoc) : AuthDoc.ofToml (record d.fields) = .ok d := by
  simp only [ofToml, bind_eq_ok]
  exact ⟨_, rfl, _, (required_pair (by decide) _ _).1, _, (required_pair (by decide) _ _).2, rfl⟩

theorem ParamEntryDoc.ofToml_record (d : ParamEntryDoc) :
    ParamEntryDoc.ofToml (record d.fields) = .ok d := by
  simp only [ofToml, bind_eq_ok]
  exact ⟨_, rfl, _, (required_pair (by decide) _ _).1, _, (required_pair (by decide) _ _).2, rfl⟩

theorem CoordEntryDoc.ofToml_record (d : CoordEntryDoc) :
    CoordEntryDoc.ofToml (record d.fields) = .ok d := by
  simp only [ofToml, bind_eq_ok]
  exact ⟨_, rfl, _, (required_pair (by decide) _ _).1, _, (required_pair (by decide) _ _).2, rfl⟩

/-! ## Connections -/

namespace ConnectionDoc

theorem nodup_keys (d : ConnectionDoc) : (d.fields.map Prod.fst).Nodup := by
  simp [fields]

theorem ofToml_record {d : ConnectionDoc} (h : d.Fits) : ofToml (record d.fields) = .ok d := by
  have hkeys := d.nodup_keys
  have hport : defaulted (Document.entriesOf d.fields) "port" (asUnsigned 16) 0 = .ok d.port := by
    refine defaulted_entries (o := if d.port = 0 then none else some (natural d.port)) hkeys
      (by simp [fields]) (fun v hv => ?_) fun hnone => ?_
    · split_ifs at hv
      rw [← Option.some.inj hv]
      exact asUnsigned_natural h.port
    · split_ifs at hnone with hzero
      exact hzero
  have htimeout : defaulted (Document.entriesOf d.fields) "timeout_ms" (asUnsigned 64) 0 =
      .ok d.timeoutMs := by
    refine defaulted_entries (o := some (natural d.timeoutMs)) hkeys (by simp [fields])
      (fun v hv => ?_) fun hnone => by cases hnone
    rw [← Option.some.inj hv]
    exact asUnsigned_natural h.timeout
  have hformat : defaulted (Document.entriesOf d.fields) "format" asString "" = .ok d.format := by
    refine defaulted_entries (o := some (.string d.format)) hkeys (by simp [fields])
      (fun v hv => ?_) fun hnone => by cases hnone
    rw [← Option.some.inj hv]
    rfl
  have hargs : defaulted (Document.entriesOf d.fields) "args" (asList asString) [] = .ok d.args :=
    defaulted_unlessNil (g := .string) hkeys (by simp [fields]) fun _ _ => rfl
  have hheaders : defaulted (Document.entriesOf d.fields) "headers" (asList HeaderDoc.ofToml) [] =
      .ok d.headers :=
    defaulted_unlessNil hkeys (by simp [fields]) fun h _ => HeaderDoc.ofToml_record h
  have hauth : optional (Document.entriesOf d.fields) "auth" AuthDoc.ofToml = .ok d.auth :=
    optional_entries hkeys (by simp [fields]) fun a _ => AuthDoc.ofToml_record a
  have hstring : ∀ {key : String} {x : Option String}, (key, x.map Document.string) ∈ d.fields →
      optional (Document.entriesOf d.fields) key asString = .ok x := fun hm => optional_string hkeys hm
  have hskipped : ∀ {key s : String}, (key, unlessEmpty s) ∈ d.fields →
      defaulted (Document.entriesOf d.fields) key asString "" = .ok s := fun hm =>
    defaulted_unlessEmpty hkeys hm
  simp only [ofToml, bind_eq_ok]
  exact ⟨_, rfl, _, required_string hkeys (by simp [fields]),
    _, required_string hkeys (by simp [fields]), _, hskipped (by simp [fields]), _, hargs,
    _, hformat, _, hstring (by simp [fields]), _, htimeout, _, hstring (by simp [fields]),
    _, hskipped (by simp [fields]), _, hheaders, _, hauth, _, hskipped (by simp [fields]),
    _, hskipped (by simp [fields]), _, hport, _, hskipped (by simp [fields]),
    _, hskipped (by simp [fields]), _, hstring (by simp [fields]), _, hskipped (by simp [fields]),
    _, hskipped (by simp [fields]), rfl⟩

end ConnectionDoc

/-! ## Flows, tests and jobs -/

theorem FlowInputDoc.ofToml_record {d : FlowInputDoc} (h : d.All ConnectionDoc.Fits) :
    FlowInputDoc.ofToml (record d.fields) = .ok d := by
  have hkeys : (d.fields.map Prod.fst).Nodup := by simp [fields]
  simp only [ofToml, bind_eq_ok]
  exact ⟨_, rfl, _, required_string hkeys (by simp [fields]),
    _, required_string hkeys (by simp [fields]),
    _, optional_entries hkeys (by simp [fields]) fun c hc => ConnectionDoc.ofToml_record (h c hc),
    rfl⟩

theorem FlowDoc.ofToml_record {d : FlowDoc} (h : d.All ConnectionDoc.Fits) :
    FlowDoc.ofToml (record d.fields) = .ok d := by
  have hkeys : (d.fields.map Prod.fst).Nodup := by simp [fields]
  simp only [ofToml, bind_eq_ok]
  exact ⟨_, rfl, _, required_string hkeys (by simp [fields]),
    _, required_string hkeys (by simp [fields]), _, optional_string hkeys (by simp [fields]),
    _, optional_string hkeys (by simp [fields]),
    _, defaulted_unlessNil hkeys (by simp [fields]) fun i hi => FlowInputDoc.ofToml_record (h i hi),
    rfl⟩

theorem TestCellDoc.ofToml_record (d : TestCellDoc) :
    TestCellDoc.ofToml (record d.fields) = .ok d := by
  have hkeys : (d.fields.map Prod.fst).Nodup := by simp [fields]
  have hcoord : asList CoordEntryDoc.ofToml (items (fun c => record c.fields) d.coord) =
      .ok d.coord := asList_items fun c _ => c.ofToml_record
  simp only [ofToml, bind_eq_ok]
  exact ⟨_, rfl, _, required_entries hkeys (by simp [fields]) hcoord,
    _, required_string hkeys (by simp [fields]), rfl⟩

theorem FlowTestDoc.ofToml_record (d : FlowTestDoc) :
    FlowTestDoc.ofToml (record d.fields) = .ok d := by
  have hkeys : (d.fields.map Prod.fst).Nodup := by simp [fields]
  simp only [ofToml, bind_eq_ok]
  exact ⟨_, rfl, _, required_string hkeys (by simp [fields]),
    _, required_string hkeys (by simp [fields]),
    _, defaulted_unlessEmpty hkeys (by simp [fields]), _, optional_string hkeys (by simp [fields]),
    _, defaulted_unlessNil hkeys (by simp [fields]) fun p _ => p.ofToml_record,
    _, defaulted_unlessNil hkeys (by simp [fields]) fun p _ => p.ofToml_record,
    _, defaulted_unlessNil hkeys (by simp [fields]) fun c _ => c.ofToml_record, rfl⟩

theorem JobDoc.ofToml_record {d : JobDoc} (h : d.everyMillis < 2 ^ 64) :
    JobDoc.ofToml (record d.fields) = .ok d := by
  have hkeys : (d.fields.map Prod.fst).Nodup := by simp [fields]
  have hperiod : asUnsigned 64 (natural d.everyMillis) = .ok d.everyMillis :=
    asUnsigned_natural h
  have henabled : asBool (.boolean d.enabled) = .ok d.enabled := rfl
  simp only [ofToml, bind_eq_ok]
  exact ⟨_, rfl, _, required_string hkeys (by simp [fields]),
    _, defaulted_unlessNil (g := .string) hkeys (by simp [fields]) fun _ _ => rfl,
    _, required_entries hkeys (by simp [fields]) hperiod,
    _, required_entries hkeys (by simp [fields]) henabled, rfl⟩

/-- **Read back.** Every document whose numbers are of their types is read back
from its table. -/
theorem AutomationDoc.ofToml_record {d : AutomationDoc} (h : d.All ConnectionDoc.Fits)
    (hperiods : d.PeriodsFit) : AutomationDoc.ofToml (record d.fields) = .ok d := by
  have hkeys : (d.fields.map Prod.fst).Nodup := by simp [fields]
  simp only [ofToml, bind_eq_ok]
  exact ⟨_, rfl, _, required_string hkeys (by simp [fields]),
    _, defaulted_unlessNil hkeys (by simp [fields]) fun f hf => FlowDoc.ofToml_record (h.flows f hf),
    _, defaulted_unlessNil hkeys (by simp [fields]) fun t _ => t.ofToml_record,
    _, defaulted_unlessNil hkeys (by simp [fields]) fun c hc =>
      ConnectionDoc.ofToml_record (h.connections c hc),
    _, defaulted_unlessNil hkeys (by simp [fields]) fun j hj => JobDoc.ofToml_record (hperiods j hj),
    rfl⟩

/-! ## What can be written -/

section

variable {n : Nat}

theorem writable_header (d : HeaderDoc) : (record d.fields).Writable (n + 1) := by
  rw [writable_record (by simp [HeaderDoc.fields])]
  simp [HeaderDoc.fields]

theorem writable_auth (d : AuthDoc) : (record d.fields).Writable (n + 1) := by
  rw [writable_record (by simp [AuthDoc.fields])]
  simp [AuthDoc.fields]

theorem writable_param (d : ParamEntryDoc) : (record d.fields).Writable (n + 1) := by
  rw [writable_record (by simp [ParamEntryDoc.fields])]
  simp [ParamEntryDoc.fields]

theorem writable_coord (d : CoordEntryDoc) : (record d.fields).Writable (n + 1) := by
  rw [writable_record (by simp [CoordEntryDoc.fields])]
  simp [CoordEntryDoc.fields]

theorem writable_testCell (d : TestCellDoc) : (record d.fields).Writable (n + 3) := by
  rw [writable_record (by simp [TestCellDoc.fields])]
  simp [TestCellDoc.fields, writable_coord]

theorem writable_flowTest (d : FlowTestDoc) : (record d.fields).Writable (n + 5) := by
  rw [writable_record (by simp [FlowTestDoc.fields])]
  simp [FlowTestDoc.fields, writable_param, writable_testCell]

theorem writable_job {d : JobDoc} (h : d.everyMillis < 2 ^ 64) :
    (record d.fields).Writable (n + 2) := by
  rw [writable_record (by simp [JobDoc.fields])]
  simpa [JobDoc.fields] using h

theorem writable_connection {d : ConnectionDoc} (h : d.Fits) :
    (record d.fields).Writable (n + 3) := by
  have hport : Held (n + 2) (if d.port = 0 then none else some (natural d.port)) := by
    have := h.port
    split_ifs
    · simp [Held]
    · exact held_natural.2 (by omega)
  rw [writable_record d.nodup_keys]
  simpa [ConnectionDoc.fields, hport, held_map, writable_header, writable_auth] using h.timeout

theorem writable_flowInput {d : FlowInputDoc} (h : d.All ConnectionDoc.Fits) :
    (record d.fields).Writable (n + 4) := by
  rw [writable_record (by simp [FlowInputDoc.fields])]
  simp only [FlowInputDoc.fields, List.forall_mem_cons, held_string, true_and, held_map]
  simp only [List.not_mem_nil, IsEmpty.forall_iff, implies_true, and_true]
  exact fun c hc => writable_connection (h c hc)

theorem writable_flow {d : FlowDoc} (h : d.All ConnectionDoc.Fits) :
    (record d.fields).Writable (n + 6) := by
  rw [writable_record (by simp [FlowDoc.fields])]
  simp only [FlowDoc.fields, List.forall_mem_cons, held_string, held_map_string, true_and,
    held_unlessNil, List.not_mem_nil, IsEmpty.forall_iff, implies_true, and_true]
  exact fun i hi => writable_flowInput (h i hi)

/-- **Written.** Every document whose numbers are of their types can be
written. -/
theorem AutomationDoc.writable {d : AutomationDoc} (h : d.All ConnectionDoc.Fits)
    (hperiods : d.PeriodsFit) : (record d.fields).Writable (n + 8) := by
  rw [writable_record (by simp [fields])]
  simp only [fields, List.forall_mem_cons, held_string, true_and, held_unlessNil,
    List.not_mem_nil, IsEmpty.forall_iff, implies_true, and_true, writable_flowTest]
  refine ⟨fun f hf => writable_flow (h.flows f hf), fun c hc => ?_, fun j hj => ?_⟩
  · exact writable_connection (h.connections c hc)
  · exact writable_job (hperiods j hj)

end

/-! ## What was read -/

section

variable {v : Document}

theorem ConnectionDoc.fits_of_ofToml {d : ConnectionDoc} (h : ConnectionDoc.ofToml v = .ok d) :
    d.Fits := by
  simp only [ConnectionDoc.ofToml, bind_eq_ok] at h
  obtain ⟨t, -, name, -, kind, -, program, -, args, -, format, -, jsonPath, -, timeoutMs, htimeout,
    workingDir, -, url, -, headers, -, auth, -, engine, -, host, -, port, hport, database, -,
    user, -, passwordSecret, -, query, -, sslMode, -, h⟩ := h
  obtain rfl := Except.ok.inj h
  constructor
  · change port < 2 ^ 16
    rcases exists_of_defaulted hport with hzero | ⟨w, hport⟩
    · omega
    · exact asUnsigned_lt hport
  · change timeoutMs < 2 ^ 64
    rcases exists_of_defaulted htimeout with hzero | ⟨w, htimeout⟩
    · omega
    · exact asUnsigned_lt htimeout

theorem FlowInputDoc.fits_of_ofToml {d : FlowInputDoc} (h : FlowInputDoc.ofToml v = .ok d) :
    d.All ConnectionDoc.Fits := by
  simp only [FlowInputDoc.ofToml, bind_eq_ok] at h
  obtain ⟨t, -, name, -, scope, -, connection, hconnection, h⟩ := h
  obtain rfl := Except.ok.inj h
  intro c hc
  obtain ⟨w, hread⟩ := exists_of_optional hconnection hc
  exact ConnectionDoc.fits_of_ofToml hread

theorem FlowDoc.fits_of_ofToml {d : FlowDoc} (h : FlowDoc.ofToml v = .ok d) :
    d.All ConnectionDoc.Fits := by
  simp only [FlowDoc.ofToml, bind_eq_ok] at h
  obtain ⟨t, -, name, -, source, -, owner, -, defaultCube, -, inputs, hinputs, h⟩ := h
  obtain rfl := Except.ok.inj h
  intro i hi
  obtain ⟨w, hread⟩ := exists_of_section hinputs i hi
  exact FlowInputDoc.fits_of_ofToml hread

theorem JobDoc.fits_of_ofToml {d : JobDoc} (h : JobDoc.ofToml v = .ok d) :
    d.everyMillis < 2 ^ 64 := by
  simp only [JobDoc.ofToml, bind_eq_ok] at h
  obtain ⟨t, -, name, -, steps, -, everyMillis, hperiod, enabled, -, h⟩ := h
  obtain rfl := Except.ok.inj h
  obtain ⟨w, hread⟩ := exists_of_required hperiod
  exact asUnsigned_lt hread

theorem AutomationDoc.fits_of_ofToml {d : AutomationDoc} (h : AutomationDoc.ofToml v = .ok d) :
    d.All ConnectionDoc.Fits ∧ d.PeriodsFit := by
  simp only [AutomationDoc.ofToml, bind_eq_ok] at h
  obtain ⟨t, -, format, -, flows, hflows, flowTests, -, connections, hconnections, jobs, hjobs,
    h⟩ := h
  obtain rfl := Except.ok.inj h
  refine ⟨⟨fun f hf => ?_, fun c hc => ?_⟩, fun j hj => ?_⟩
  · obtain ⟨w, hread⟩ := exists_of_section hflows f hf
    exact FlowDoc.fits_of_ofToml hread
  · obtain ⟨w, hread⟩ := exists_of_section hconnections c hc
    exact ConnectionDoc.fits_of_ofToml hread
  · obtain ⟨w, hread⟩ := exists_of_section hjobs j hj
    exact JobDoc.fits_of_ofToml hread

end

/-! ## Objects and their records -/

theorem buildConnection_connectionDoc (conn : Connection ConnectionSpec) :
    buildConnection (connectionDoc conn) = conn := by
  obtain ⟨name, spec⟩ := conn
  cases spec with
  | command cmd =>
    have hformat : buildFormat (formatToken cmd.format) = cmd.format := by
      cases cmd.format <;> rfl
    simp [connectionDoc, buildConnection, hformat]
  | http http =>
    have hformat : buildFormat (formatToken http.format) = http.format := by
      cases http.format <;> rfl
    have hkind : ∀ a : HttpAuth, buildAuthKind (authKindToken a.kind) = a.kind := by
      intro a
      cases a.kind <;> rfl
    simp [connectionDoc, buildConnection, hformat, hkind, Function.comp_def]
  | sql sql =>
    have hengine : buildSqlEngine (sqlEngineToken sql.engine) = sql.engine := by
      cases sql.engine <;> rfl
    have hmode : buildSslMode (sslModeToken sql.sslMode) = sql.sslMode := by
      cases sql.sslMode <;> rfl
    simp [connectionDoc, buildConnection, hengine, hmode]

theorem buildFlowInput_flowInputDoc (input : FlowInput ConnectionSpec) :
    buildFlowInput (flowInputDoc input) = input := by
  obtain ⟨name, binding⟩ := input
  cases binding with
  | global => rfl
  | «local» spec => simp [flowInputDoc, buildFlowInput, buildConnection_connectionDoc]

theorem buildFlow_flowDoc (flow : Flow ConnectionSpec) : buildFlow (flowDoc flow) = flow := by
  simp [flowDoc, buildFlow, Function.comp_def, buildFlowInput_flowInputDoc]

theorem buildTestCell_testCellDoc (cell : TestCell) : buildTestCell (testCellDoc cell) = cell := by
  simp [testCellDoc, buildTestCell, Function.comp_def, FinMap.collect_toList]

theorem buildFlowTest_flowTestDoc (test : FlowTest) : buildFlowTest (flowTestDoc test) = test := by
  simp [flowTestDoc, buildFlowTest, Function.comp_def, FinMap.collect_toList,
    buildTestCell_testCellDoc]

theorem buildJob_jobDoc (job : Job) : buildJob (jobDoc job) = job := by
  obtain ⟨name, steps, ⟨everyMillis⟩, enabled⟩ := job
  rfl

/-- A section of objects under their own names is built from their records. -/
theorem byName_toList {δ α : Type} {build : δ → α} {doc : α → δ} {name : α → String}
    (hbuild : ∀ x, build (doc x) = x) {m : FinMap String α}
    (hname : ∀ (k : String) (x : α), m[k]? = some x → name x = k) :
    byName build name (m.toList.map fun e => doc e.2) = m := by
  have hentries : m.toList.map (fun e => (name e.2, e.2)) = m.toList := by
    rw [List.map_congr_left (g := id)]
    · exact List.map_id _
    · rintro ⟨k, x⟩ hm
      rw [hname k x (FinMap.mem_toList.1 hm)]
      rfl
  rw [byName, List.map_map]
  simp only [Function.comp_def, hbuild, hentries, FinMap.collect_toList]

/-- What a section holds was built from one of its records. -/
theorem exists_of_get_byName {δ α : Type} {build : δ → α} {name : α → String} {docs : List δ}
    {k : String} {x : α} (h : (byName build name docs)[k]? = some x) :
    ∃ d ∈ docs, build d = x ∧ name x = k := by
  unfold byName FinMap.collect at h
  induction docs using List.reverseRecOn with
  | nil => simp at h
  | append_singleton docs d ih =>
    simp only [List.map_append, List.map_cons, List.map_nil, List.foldl_append, List.foldl_cons,
      List.foldl_nil] at h
    rw [FinMap.get_insert] at h
    split_ifs at h with hk
    · obtain rfl := Option.some.inj h
      exact ⟨d, by simp, rfl, hk⟩
    · obtain ⟨d', hd', hx⟩ := ih h
      exact ⟨d', List.mem_append_left _ hd', hx⟩

@[simp] theorem timeoutMs_connectionDoc (conn : Connection ConnectionSpec) :
    (connectionDoc conn).timeoutMs = conn.spec.timeoutMs := by
  obtain ⟨name, spec⟩ := conn
  cases spec <;> rfl

theorem fits_connectionDoc (conn : Connection ConnectionSpec) :
    (connectionDoc conn).Fits ↔ conn.spec.Fits := by
  have hport : (connectionDoc conn).port < 2 ^ 16 ↔ conn.spec.PortFits := by
    obtain ⟨name, spec⟩ := conn
    cases spec with
    | sql spec => exact Iff.rfl
    | _ => exact iff_of_true (by decide : 0 < 2 ^ 16) trivial
  have htimeout := timeoutMs_connectionDoc conn
  exact ⟨fun h => ⟨hport.1 h.port, htimeout ▸ h.timeout⟩,
    fun h => ⟨hport.2 h.port, htimeout ▸ h.timeout⟩⟩

theorem timeoutMs_buildConnection (doc : ConnectionDoc) :
    (buildConnection doc).spec.timeoutMs = doc.timeoutMs := by
  unfold buildConnection
  dsimp only
  split_ifs <;> rfl

theorem fits_buildConnection {doc : ConnectionDoc} (h : doc.Fits) :
    (buildConnection doc).spec.Fits := by
  refine ⟨?_, (timeoutMs_buildConnection doc).symm ▸ h.timeout⟩
  unfold buildConnection
  dsimp only
  split_ifs
  · trivial
  · exact h.port
  · trivial

/-! ## The round trip -/

namespace Automation

variable {τ : Type} {toml : TomlLibrary τ} {a b : Automation ConnectionSpec}

/-- A property of all connections, those inside flows included. -/
structure AllSpecs (P : ConnectionSpec → Prop) (a : Automation ConnectionSpec) : Prop where
  flows : ∀ (k : String) (f : Flow ConnectionSpec), a.flows[k]? = some f →
    ∀ i ∈ f.inputs, ∀ spec, i.binding = .local spec → P spec
  connections : ∀ (k : String) (c : Connection ConnectionSpec),
    a.connections[k]? = some c → P c.spec

/-- What every request and every load keeps: each object stands under its
name, and numbers are of their machine types. -/
structure Built (a : Automation ConnectionSpec) : Prop where
  flows : ∀ (k : String) (f : Flow ConnectionSpec), a.flows[k]? = some f → f.name = k
  flowTests : ∀ (k : String) (t : FlowTest), a.flowTests[k]? = some t → t.name = k
  connections : ∀ (k : String) (c : Connection ConnectionSpec),
    a.connections[k]? = some c → c.name = k
  jobs : ∀ (k : String) (j : Job), a.jobs[k]? = some j → j.name = k
  specs : a.AllSpecs ConnectionSpec.Fits
  periods : ∀ (k : String) (j : Job), a.jobs[k]? = some j → j.trigger.period < 2 ^ 64

/-- Whether the objects can be written, and are read back. -/
def RoundTrips (toml : TomlLibrary τ) (a : Automation ConnectionSpec) : Prop :=
  ∃ text, a.toModelText toml = .ok text ∧ fromModelText toml text = .ok a

theorem all_flowDoc {P : ConnectionDoc → Prop} {Q : ConnectionSpec → Prop}
    (hPQ : ∀ conn, P (connectionDoc conn) ↔ Q conn.spec) {flow : Flow ConnectionSpec} :
    (flowDoc flow).All P ↔ ∀ i ∈ flow.inputs, ∀ spec, i.binding = .local spec → Q spec := by
  simp only [FlowDoc.All, flowDoc, List.forall_mem_map]
  refine forall₂_congr fun i _ => ?_
  obtain ⟨name, binding⟩ := i
  cases binding with
  | global => simp [FlowInputDoc.All, flowInputDoc]
  | «local» spec => simp [FlowInputDoc.All, flowInputDoc, hPQ]

theorem all_doc_iff {P : ConnectionDoc → Prop} {Q : ConnectionSpec → Prop}
    (hPQ : ∀ conn, P (connectionDoc conn) ↔ Q conn.spec) : a.doc.All P ↔ a.AllSpecs Q := by
  constructor
  · rintro ⟨hflows, hconnections⟩
    constructor
    · intro k f hf
      exact (all_flowDoc hPQ).1
        (hflows _ (List.mem_map.2 ⟨(k, f), FinMap.mem_toList.2 hf, rfl⟩))
    · intro k c hc
      exact (hPQ c).1 (hconnections _ (List.mem_map.2 ⟨(k, c), FinMap.mem_toList.2 hc, rfl⟩))
  · rintro ⟨hflows, hconnections⟩
    constructor
    · intro f hf
      obtain ⟨⟨k, flow⟩, hm, rfl⟩ := List.mem_map.1 hf
      exact (all_flowDoc hPQ).2 (hflows k flow (FinMap.mem_toList.1 hm))
    · intro c hc
      obtain ⟨⟨k, conn⟩, hm, rfl⟩ := List.mem_map.1 hc
      exact (hPQ conn).2 (hconnections k conn (FinMap.mem_toList.1 hm))

theorem periodsFit_doc_iff :
    a.doc.PeriodsFit ↔
      ∀ (k : String) (j : Job), a.jobs[k]? = some j → j.trigger.period < 2 ^ 64 := by
  constructor
  · intro h k j hj
    exact h _ (List.mem_map.2 ⟨(k, j), FinMap.mem_toList.2 hj, rfl⟩)
  · intro h d hd
    obtain ⟨⟨k, j⟩, hm, rfl⟩ := List.mem_map.1 hd
    exact h k j (FinMap.mem_toList.1 hm)

theorem automationFromDocs_doc (ha : a.Built) :
    automationFromDocs a.doc.flows a.doc.flowTests a.doc.connections a.doc.jobs = a := by
  have hflows := byName_toList buildFlow_flowDoc ha.flows
  have htests := byName_toList buildFlowTest_flowTestDoc ha.flowTests
  have hconnections := byName_toList buildConnection_connectionDoc ha.connections
  have hjobs := byName_toList buildJob_jobDoc ha.jobs
  obtain ⟨flows, flowTests, connections, jobs⟩ := a
  simp only [automationFromDocs, doc] at hflows htests hconnections hjobs ⊢
  rw [hflows, htests, hconnections, hjobs]

/-- Objects as requests build them are written and read back. -/
theorem Built.rereads (htoml : toml.Lawful) (ha : a.Built) : RoundTrips toml a := by
  have hfits := (all_doc_iff fits_connectionDoc).2 ha.specs
  have hperiods := periodsFit_doc_iff.2 ha.periods
  obtain ⟨text, hwrite, hread⟩ := htoml.writes _ (AutomationDoc.writable hfits hperiods)
  refine ⟨text, hwrite, ?_⟩
  have hdoc := AutomationDoc.ofToml_record hfits hperiods
  simp only [fromModelText, hread, hdoc, bind_eq_ok, mapError_eq_ok, Except.ok.injEq,
    exists_eq_left']
  rw [if_neg (not_not_intro (show a.doc.format = automationFormatTag from rfl)),
    automationFromDocs_doc ha]

/-- What is read from a text is as requests build it. -/
theorem built_of_fromModelText {text : τ} (h : fromModelText toml text = .ok b) : b.Built := by
  simp only [fromModelText, bind_eq_ok, mapError_eq_ok] at h
  obtain ⟨v, -, doc, hdoc, h⟩ := h
  split_ifs at h
  obtain rfl := Except.ok.inj h
  obtain ⟨hall, hperiods⟩ := AutomationDoc.fits_of_ofToml hdoc
  -- a local input without a connection is an empty command
  have hinput : ∀ f ∈ doc.flows, ∀ i ∈ (buildFlow f).inputs, ∀ spec, i.binding = .local spec →
      spec.Fits := by
    intro f hf i hi spec hspec
    obtain ⟨d, hd, rfl⟩ := List.mem_map.1 hi
    unfold buildFlowInput at hspec
    dsimp only at hspec
    split_ifs at hspec
    obtain rfl := FlowInputBinding.local.inj hspec
    rcases hc : d.connection with - | c
    · exact ⟨trivial, by decide⟩
    · exact fits_buildConnection (hall.flows f hf d hd c hc)
  refine ⟨fun k f hf => ?_, fun k t ht => ?_, fun k c hc => ?_, fun k j hj => ?_,
    ⟨fun k f hf => ?_, fun k c hc => ?_⟩, fun k j hj => ?_⟩
  · exact (exists_of_get_byName hf).choose_spec.2.2
  · exact (exists_of_get_byName ht).choose_spec.2.2
  · exact (exists_of_get_byName hc).choose_spec.2.2
  · exact (exists_of_get_byName hj).choose_spec.2.2
  · obtain ⟨d, hd, rfl, -⟩ := exists_of_get_byName hf
    exact hinput d hd
  · obtain ⟨d, hd, rfl, -⟩ := exists_of_get_byName hc
    exact fits_buildConnection (hall.connections d hd)
  · obtain ⟨d, hd, rfl, -⟩ := exists_of_get_byName hj
    exact hperiods d hd

/-! ## What requests build -/

end Automation

/-- A change of the automation store. -/
inductive AutomationEdit where
  | defineFlow (flow : Flow ConnectionSpec)
  | deleteFlow (name : String)
  | defineFlowTest (test : FlowTest)
  | deleteFlowTest (name : String)
  | defineConnection (connection : Connection ConnectionSpec)
  | deleteConnection (name : String)
  | defineJob (job : Job)
  | deleteJob (name : String)

/-- The numbers in a change are of their machine types. -/
def AutomationEdit.Fits : AutomationEdit → Prop
  | .defineFlow flow => ∀ i ∈ flow.inputs, ∀ spec, i.binding = .local spec → spec.Fits
  | .defineConnection connection => connection.spec.Fits
  | .defineJob job => job.trigger.period < 2 ^ 64
  | _ => True

namespace Automation

variable {τ : Type} {toml : TomlLibrary τ} {a : Automation ConnectionSpec}

def edit (a : Automation ConnectionSpec) : AutomationEdit → Automation ConnectionSpec
  | .defineFlow flow => { a with flows := a.flows.insert flow.name flow }
  | .deleteFlow name => { a with flows := a.flows.erase name }
  | .defineFlowTest test => { a with flowTests := a.flowTests.insert test.name test }
  | .deleteFlowTest name => { a with flowTests := a.flowTests.erase name }
  | .defineConnection connection =>
    { a with connections := a.connections.insert connection.name connection }
  | .deleteConnection name => { a with connections := a.connections.erase name }
  | .defineJob job => { a with jobs := a.jobs.insert job.name job }
  | .deleteJob name => { a with jobs := a.jobs.erase name }

/-- A property of each entry of a section, kept by an insertion. -/
theorem forall_get_insert {α : Type} {m : FinMap String α} {P : String → α → Prop}
    (h : ∀ (k : String) (x : α), m[k]? = some x → P k x) {key : String} {v : α} (hv : P key v) :
    ∀ (k : String) (x : α), (m.insert key v)[k]? = some x → P k x := by
  intro k x hx
  rw [FinMap.get_insert] at hx
  split_ifs at hx with hk
  · obtain rfl := Option.some.inj hx
    exact hk ▸ hv
  · exact h k x hx

theorem forall_get_erase {α : Type} {m : FinMap String α} {P : String → α → Prop}
    (h : ∀ (k : String) (x : α), m[k]? = some x → P k x) (key : String) :
    ∀ (k : String) (x : α), (m.erase key)[k]? = some x → P k x := by
  intro k x hx
  rw [FinMap.get_erase] at hx
  split_ifs at hx
  exact h k x hx

theorem Built.empty : (Automation.empty : Automation ConnectionSpec).Built where
  flows k f h := by simp [Automation.empty] at h
  flowTests k t h := by simp [Automation.empty] at h
  connections k c h := by simp [Automation.empty] at h
  jobs k j h := by simp [Automation.empty] at h
  specs := ⟨fun k f h => by simp [Automation.empty] at h,
    fun k c h => by simp [Automation.empty] at h⟩
  periods k j h := by simp [Automation.empty] at h

theorem Built.edit (ha : a.Built) {e : AutomationEdit} (he : e.Fits) : (a.edit e).Built := by
  have hinputs := ha.specs.flows
  have hspecs := ha.specs.connections
  have hperiods := ha.periods
  cases e with
  | defineFlow flow =>
    exact
      { flows := forall_get_insert ha.flows rfl
        flowTests := ha.flowTests
        connections := ha.connections
        jobs := ha.jobs
        specs := ⟨forall_get_insert (P := fun _ (f : Flow ConnectionSpec) => ∀ i ∈ f.inputs,
          ∀ spec, i.binding = .local spec → spec.Fits) hinputs he, hspecs⟩
        periods := hperiods }
  | deleteFlow name =>
    exact
      { flows := forall_get_erase ha.flows name
        flowTests := ha.flowTests
        connections := ha.connections
        jobs := ha.jobs
        specs := ⟨forall_get_erase (P := fun _ (f : Flow ConnectionSpec) => ∀ i ∈ f.inputs,
          ∀ spec, i.binding = .local spec → spec.Fits) hinputs name, hspecs⟩
        periods := hperiods }
  | defineFlowTest test =>
    exact ⟨ha.flows, forall_get_insert ha.flowTests rfl, ha.connections, ha.jobs,
      ⟨hinputs, hspecs⟩, hperiods⟩
  | deleteFlowTest name =>
    exact ⟨ha.flows, forall_get_erase ha.flowTests name, ha.connections, ha.jobs,
      ⟨hinputs, hspecs⟩, hperiods⟩
  | defineConnection connection =>
    exact ⟨ha.flows, ha.flowTests, forall_get_insert ha.connections rfl, ha.jobs, ⟨hinputs,
      forall_get_insert (P := fun _ (c : Connection ConnectionSpec) => c.spec.Fits) hspecs he⟩,
      hperiods⟩
  | deleteConnection name =>
    exact ⟨ha.flows, ha.flowTests, forall_get_erase ha.connections name, ha.jobs, ⟨hinputs,
      forall_get_erase (P := fun _ (c : Connection ConnectionSpec) => c.spec.Fits) hspecs name⟩,
      hperiods⟩
  | defineJob job =>
    exact ⟨ha.flows, ha.flowTests, ha.connections, forall_get_insert ha.jobs rfl,
      ⟨hinputs, hspecs⟩, forall_get_insert (P := fun _ (j : Job) => j.trigger.period < 2 ^ 64)
        hperiods he⟩
  | deleteJob name =>
    exact ⟨ha.flows, ha.flowTests, ha.connections, forall_get_erase ha.jobs name,
      ⟨hinputs, hspecs⟩, forall_get_erase (P := fun _ (j : Job) => j.trigger.period < 2 ^ 64)
        hperiods name⟩

/-- What any sequence of requests builds. -/
theorem Built.edits (ha : a.Built) {edits : List AutomationEdit} (h : ∀ e ∈ edits, e.Fits) :
    (edits.foldl Automation.edit a).Built := by
  induction edits generalizing a with
  | nil => exact ha
  | cons e edits ih =>
    exact ih (ha.edit (h e List.mem_cons_self)) fun x hx => h x (List.mem_cons_of_mem _ hx)

/-- **The text of an automation.** The objects that requests build are written
and read back, and so is what is read from any text. -/
theorem roundTrips (htoml : toml.Lawful) (ha : a.Built) :
    RoundTrips toml a ∧ ∀ text b, fromModelText toml text = .ok b → RoundTrips toml b :=
  ⟨ha.rereads htoml, fun _ _ hread => (built_of_fromModelText hread).rereads htoml⟩

/-- A flow of a global and a local input with its test, a command, a database
behind the highest port, and a job whose period has no signed 64-bit integer. -/
def plantEdits : List AutomationEdit :=
  [.defineFlow ⟨"load \"daily\"", "rows = \t\n", some "ann", some "Sales",
      [⟨"orders", .global⟩, ⟨"feed", .local (.http ⟨"https://feed/?a=b", [("Accept", "text/csv")],
        some ⟨.basic, "token"⟩, .json, some "$.rows", 2 ^ 64 - 1⟩)⟩]⟩,
    .defineFlowTest ⟨"loads", "load \"daily\"", "", FinMap.collect [("feed", "a,b")], none,
      FinMap.collect [("year", "2026")],
      [⟨FinMap.collect [("Region", "North"), ("Month", "Jan")], "12.5"⟩]⟩,
    .defineConnection ⟨"orders", .command ⟨"cat", ["orders.csv"], .csv, none, 0, some ""⟩⟩,
    .defineConnection ⟨"books", .sql ⟨.mySql, "db", 2 ^ 16 - 1, "books", "reader", none,
      "select 1", .disable, 30⟩⟩,
    .defineJob ⟨"once", ["load \"daily\""], .interval (2 ^ 63), true⟩]

def plant : Automation ConnectionSpec := plantEdits.foldl Automation.edit Automation.empty

theorem fits_plantEdits : ∀ e ∈ plantEdits, e.Fits := by
  simp only [plantEdits, List.forall_mem_cons, AutomationEdit.Fits, List.not_mem_nil,
    IsEmpty.forall_iff, implies_true, and_true, true_and]
  refine ⟨⟨fun spec h => ?_, fun spec h => ?_⟩, ?_, ?_, by decide⟩
  · cases h
  · rw [← FlowInputBinding.local.inj h]
    exact ⟨trivial, by decide⟩
  · exact ⟨trivial, by decide⟩
  · exact ⟨(by decide : 2 ^ 16 - 1 < 2 ^ 16), by decide⟩

theorem built_plant : plant.Built := Built.empty.edits fits_plantEdits

/-- Its text is read back, and what is read is written to that text. -/
theorem roundTrips_plant : ∃ text, plant.toModelText TomlLibrary.tokens = .ok text ∧
    fromModelText TomlLibrary.tokens text = .ok plant ∧ RoundTrips TomlLibrary.tokens plant ∧
    plant.jobs["once"]?.isSome = true := by
  obtain ⟨⟨text, hwrite, hread⟩, hstable⟩ := roundTrips TomlLibrary.lawful_tokens built_plant
  refine ⟨text, hwrite, hread, hstable text plant hread, ?_⟩
  simp [plant, plantEdits, Automation.edit]

end Automation

end Epiphany

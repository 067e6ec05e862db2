import Epiphany.Common.Documents
import Epiphany.Core.DimensionText
import Epiphany.Server.Automation
/-!
# Automation documents — how flows, connections and jobs are written

The automation objects are saved as one document. Each object has a flat
record, whose empty fields are left out; the three kinds of connections share
one. What is left out has a default when it is read, and a kind or a mode
that is not known is read as the default one.
-/

namespace Epiphany

open Document

/-! ## Connections -/

structure HeaderDoc where
  name : String
  value : String

structure AuthDoc where
  kind : String
  secret : String

/-- A connection of any kind; the fields of other kinds are empty. -/
structure ConnectionDoc where
  name : String
  kind : String
  program : String := ""
  args : List String := []
  format : String := ""
  jsonPath : Option String := none
  timeoutMs : Nat := 0
  workingDir : Option String := none
  url : String := ""
  headers : List HeaderDoc := []
  auth : Option AuthDoc := none
  engine : String := ""
  host : String := ""
  port : Nat := 0
  database : String := ""
  user : String := ""
  passwordSecret : Option String := none
  query : String := ""
  sslMode : String := ""

def buildAuthKind (token : String) : HttpAuthKind := if token = "basic" then .basic else .bearer

def buildFormat (token : String) : SourceFormat := if token = "json" then .json else .csv

def buildSqlEngine (token : String) : SqlEngine :=
  if token = "mysql" ∨ token = "mariadb" then .mySql else .postgres

def buildSslMode (token : String) : SqlSslMode :=
  if token = "require" then .require else if token = "disable" then .disable else .verifyFull

def connectionDoc (conn : Connection ConnectionSpec) : ConnectionDoc :=
  match conn.spec with
  | .command cmd =>
    { name := conn.name, kind := "command"
      program := cmd.program
      args := cmd.args
      format := formatToken cmd.format
      jsonPath := cmd.jsonPath
      timeoutMs := cmd.timeoutMs
      workingDir := cmd.workingDir }
  | .http http =>
    { name := conn.name, kind := "http"
      format := formatToken http.format
      jsonPath := http.jsonPath
      timeoutMs := http.timeoutMs
      url := http.url
      headers := http.headers.map fun h => ⟨h.1, h.2⟩
      auth := http.auth.map fun a => ⟨authKindToken a.kind, a.secret⟩ }
  | .sql sql =>
    { name := conn.name, kind := "sql"
      engine := sqlEngineToken sql.engine
      host := sql.host
      port := sql.port
      database := sql.database
      user := sql.user
      passwordSecret := sql.passwordSecret
      query := sql.query
      sslMode := sslModeToken sql.sslMode
      timeoutMs := sql.timeoutMs }

/-- A kind that is not known is read as a command. -/
def buildConnection (doc : ConnectionDoc) : Connection ConnectionSpec where
  name := doc.name
  spec :=
    if doc.kind = "http" then
      .http
        { url := doc.url
          headers := doc.headers.map fun h => (h.name, h.value)
          auth := doc.auth.map fun a => ⟨buildAuthKind a.kind, a.secret⟩
          format := buildFormat doc.format
          jsonPath := doc.jsonPath
          timeoutMs := doc.timeoutMs }
    else if doc.kind = "sql" then
      .sql
        { engine := buildSqlEngine doc.engine
          host := doc.host
          port := doc.port
          database := doc.database
          user := doc.user
          passwordSecret := doc.passwordSecret
          query := doc.query
          sslMode := buildSslMode doc.sslMode
          timeoutMs := doc.timeoutMs }
    else
      .command
        { program := doc.program
          args := doc.args
          format := buildFormat doc.format
          jsonPath := doc.jsonPath
          timeoutMs := doc.timeoutMs
          workingDir := doc.workingDir }

/-! ## Flows and their tests -/

structure FlowInputDoc where
  name : String
  scope : String
  connection : Option ConnectionDoc

structure FlowDoc where
  name : String
  source : String
  owner : Option String
  defaultCube : Option String
  inputs : List FlowInputDoc

structure ParamEntryDoc where
  name : String
  value : String

structure CoordEntryDoc where
  dimension : String
  member : String

structure TestCellDoc where
  coord : List CoordEntryDoc
  value : String

structure FlowTestDoc where
  name : String
  flow : String
  input : String
  cube : Option String
  params : List ParamEntryDoc
  inputs : List ParamEntryDoc
  assertions : List TestCellDoc

def flowInputDoc (input : FlowInput ConnectionSpec) : FlowInputDoc :=
  match input.binding with
  | .global => ⟨input.name, "global", none⟩
  | .local spec => ⟨input.name, "local", some (connectionDoc ⟨input.name, spec⟩)⟩

def flowDoc (flow : Flow ConnectionSpec) : FlowDoc :=
  ⟨flow.name, flow.source, flow.owner, flow.defaultCube, flow.inputs.map flowInputDoc⟩

/-- A scope that is not known is read as the global one, and a local input
without a connection as an empty command. -/
def buildFlowInput (doc : FlowInputDoc) : FlowInput ConnectionSpec where
  name := doc.name
  binding :=
    if doc.scope = "local" then
      .local ((doc.connection.map fun c => (buildConnection c).spec).getD
        (.command ⟨"", [], .csv, none, 0, none⟩))
    else .global

def buildFlow (doc : FlowDoc) : Flow ConnectionSpec :=
  ⟨doc.name, doc.source, doc.owner, doc.defaultCube, doc.inputs.map buildFlowInput⟩

def testCellDoc (cell : TestCell) : TestCellDoc :=
  ⟨cell.coord.toList.map fun c => ⟨c.1, c.2⟩, cell.value⟩

def buildTestCell (doc : TestCellDoc) : TestCell :=
  ⟨FinMap.collect (doc.coord.map fun c => (c.dimension, c.member)), doc.value⟩

def flowTestDoc (test : FlowTest) : FlowTestDoc where
  name := test.name
  flow := test.flow
  input := test.input
  cube := test.cube
  params := test.params.toList.map fun p => ⟨p.1, p.2⟩
  inputs := test.inputs.toList.map fun p => ⟨p.1, p.2⟩
  assertions := test.assertions.map testCellDoc

def buildFlowTest (doc : FlowTestDoc) : FlowTest where
  name := doc.name
  flow := doc.flow
  input := doc.input
  inputs := FinMap.collect (doc.inputs.map fun p => (p.name, p.value))
  cube := doc.cube
  params := FinMap.collect (doc.params.map fun p => (p.name, p.value))
  assertions := doc.assertions.map buildTestCell

/-! ## Jobs, and all of it -/

structure JobDoc where
  name : String
  steps : List String
  everyMillis : Nat
  enabled : Bool

def jobDoc (job : Job) : JobDoc :=
  match job.trigger with
  | .interval everyMillis => ⟨job.name, job.steps, everyMillis, job.enabled⟩

def buildJob (doc : JobDoc) : Job :=
  ⟨doc.name, doc.steps, .interval doc.everyMillis, doc.enabled⟩

structure AutomationDoc where
  format : String
  flows : List FlowDoc
  flowTests : List FlowTestDoc
  connections : List ConnectionDoc
  jobs : List JobDoc

def automationFormatTag : String := "epiphany-automation/v0"

/-- The objects of a section under their names. -/
def byName {δ α : Type} (build : δ → α) (name : α → String) (docs : List δ) : FinMap String α :=
  FinMap.collect (docs.map fun doc => (name (build doc), build doc))

def automationFromDocs (flows : List FlowDoc) (flowTests : List FlowTestDoc)
    (connections : List ConnectionDoc) (jobs : List JobDoc) : Automation ConnectionSpec where
  flows := byName buildFlow Flow.name flows
  flowTests := byName buildFlowTest FlowTest.name flowTests
  connections := byName buildConnection Connection.name connections
  jobs := byName buildJob Job.name jobs

/-! ## Records as tables -/

namespace HeaderDoc

def fields (d : HeaderDoc) : List (String × Option Document) :=
  [("name", some (.string d.name)), ("value", some (.string d.value))]

def ofToml (v : Document) : Except String HeaderDoc := do
  let t ← asTable v
  let name ← required t "name" asString
  let value ← required t "value" asString
  .ok ⟨name, value⟩

end HeaderDoc

namespace AuthDoc

def fields (d : AuthDoc) : List (String × Option Document) :=
  [("kind", some (.string d.kind)), ("secret", some (.string d.secret))]

def ofToml (v : Document) : Except String AuthDoc := do
  let t ← asTable v
  let kind ← required t "kind" asString
  let secret ← required t "secret" asString
  .ok ⟨kind, secret⟩

end AuthDoc

namespace ConnectionDoc

def fields (d : ConnectionDoc) : List (String × Option Document) :=
  [("name", some (.string d.name)), ("kind", some (.string d.kind)),
    ("program", unlessEmpty d.program), ("args", unlessNil .string d.args),
    ("format", some (.string d.format)), ("json_path", d.jsonPath.map .string),
    ("timeout_ms", some (natural d.timeoutMs)), ("working_dir", d.workingDir.map .string),
    ("url", unlessEmpty d.url), ("headers", unlessNil (fun h => record h.fields) d.headers),
    ("auth", d.auth.map fun a => record a.fields), ("engine", unlessEmpty d.engine),
    ("host", unlessEmpty d.host), ("port", if d.port = 0 then none else some (natural d.port)),
    ("database", unlessEmpty d.database), ("user", unlessEmpty d.user),
    ("password_secret", d.passwordSecret.map .string), ("query", unlessEmpty d.query),
    ("ssl_mode", unlessEmpty d.sslMode)]

def ofToml (v : Document) : Except String ConnectionDoc := do
  let t ← asTable v
  let name ← required t "name" asString
  let kind ← required t "kind" asString
  let program ← defaulted t "program" asString ""
  let args ← defaulted t "args" (asList asString) []
  let format ← defaulted t "format" asString ""
  let jsonPath ← optional t "json_path" asString
  let timeoutMs ← defaulted t "timeout_ms" (asUnsigned 64) 0
  let workingDir ← optional t "working_dir" asString
  let url ← defaulted t "url" asString ""
  let headers ← defaulted t "headers" (asList HeaderDoc.ofToml) []
  let auth ← optional t "auth" AuthDoc.ofToml
  let engine ← defaulted t "engine" asString ""
  let host ← defaulted t "host" asString ""
  let port ← defaulted t "port" (asUnsigned 16) 0
  let database ← defaulted t "database" asString ""
  let user ← defaulted t "user" asString ""
  let passwordSecret ← optional t "password_secret" asString
  let query ← defaulted t "query" asString ""
  let sslMode ← defaulted t "ssl_mode" asString ""
  .ok
    { name, kind, program, args, format, jsonPath, timeoutMs, workingDir, url, headers, auth
      engine, host, port, database, user, passwordSecret, query, sslMode }

end ConnectionDoc

namespace FlowInputDoc

def fields (d : FlowInputDoc) : List (String × Option Document) :=
  [("name", some (.string d.name)), ("scope", some (.string d.scope)),
    ("connection", d.connection.map fun c => record c.fields)]

def ofToml (v : Document) : Except String FlowInputDoc := do
  let t ← asTable v
  let name ← required t "name" asString
  let scope ← required t "scope" asString
  let connection ← optional t "connection" ConnectionDoc.ofToml
  .ok ⟨name, scope, connection⟩

end FlowInputDoc

namespace FlowDoc

def fields (d : FlowDoc) : List (String × Option Document) :=
  [("name", some (.string d.name)), ("source", some (.string d.source)),
    ("owner", d.owner.map .string), ("default_cube", d.defaultCube.map .string),
    ("input", unlessNil (fun i => record i.fields) d.inputs)]

def ofToml (v : Document) : Except String FlowDoc := do
  let t ← asTable v
  let name ← required t "name" asString
  let source ← required t "source" asString
  let owner ← optional t "owner" asString
  let defaultCube ← optional t "default_cube" asString
  let inputs ← defaulted t "input" (asList FlowInputDoc.ofToml) []
  .ok ⟨name, source, owner, defaultCube, inputs⟩

end FlowDoc

namespace ParamEntryDoc

def fields (d : ParamEntryDoc) : List (String × Option Document) :=
  [("name", some (.string d.name)), ("value", some (.string d.value))]

def ofToml (v : Document) : Except String ParamEntryDoc := do
  let t ← asTable v
  let name ← required t "name" asString
  let value ← required t "value" asString
  .ok ⟨name, value⟩

end ParamEntryDoc

namespace CoordEntryDoc

def fields (d : CoordEntryDoc) : List (String × Option Document) :=
  [("dimension", some (.string d.dimension)), ("member", some (.string d.member))]

def ofToml (v : Document) : Except String CoordEntryDoc := do
  let t ← asTable v
  let dimension ← required t "dimension" asString
  let member ← required t "member" asString
  .ok ⟨dimension, member⟩

end CoordEntryDoc

namespace TestCellDoc

def fields (d : TestCellDoc) : List (String × Option Document) :=
  [("coord", some (items (fun c => record c.fields) d.coord)), ("value", some (.string d.value))]

def ofToml (v : Document) : Except String TestCellDoc := do
  let t ← asTable v
  let coord ← required t "coord" (asList CoordEntryDoc.ofToml)
  let value ← required t "value" asString
  .ok ⟨coord, value⟩

end TestCellDoc

namespace FlowTestDoc

def fields (d : FlowTestDoc) : List (String × Option Document) :=
  [("name", some (.string d.name)), ("flow", some (.string d.flow)),
    ("input", unlessEmpty d.input), ("cube", d.cube.map .string),
    ("param", unlessNil (fun p => record p.fields) d.params),
    ("source", unlessNil (fun p => record p.fields) d.inputs),
    ("assertions", unlessNil (fun c => record c.fields) d.assertions)]

def ofToml (v : Document) : Except String FlowTestDoc := do
  let t ← asTable v
  let name ← required t "name" asString
  let flow ← required t "flow" asString
  let input ← defaulted t "input" asString ""
  let cube ← optional t "cube" asString
  let params ← defaulted t "param" (asList ParamEntryDoc.ofToml) []
  let inputs ← defaulted t "source" (asList ParamEntryDoc.ofToml) []
  let assertions ← defaulted t "assertions" (asList TestCellDoc.ofToml) []
  .ok ⟨name, flow, input, cube, params, inputs, assertions⟩

end FlowTestDoc

namespace JobDoc

def fields (d : JobDoc) : List (String × Option Document) :=
  [("name", some (.string d.name)), ("steps", unlessNil .string d.steps),
    ("every_millis", some (natural d.everyMillis)), ("enabled", some (.boolean d.enabled))]

def ofToml (v : Document) : Except String JobDoc := do
  let t ← asTable v
  let name ← required t "name" asString
  let steps ← defaulted t "steps" (asList asString) []
  let everyMillis ← required t "every_millis" (asUnsigned 64)
  let enabled ← required t "enabled" asBool
  .ok ⟨name, steps, everyMillis, enabled⟩

end JobDoc

namespace AutomationDoc

def fields (d : AutomationDoc) : List (String × Option Document) :=
  [("format", some (.string d.format)), ("flow", unlessNil (fun f => record f.fields) d.flows),
    ("flow_test", unlessNil (fun t => record t.fields) d.flowTests),
    ("connection", unlessNil (fun c => record c.fields) d.connections),
    ("job", unlessNil (fun j => record j.fields) d.jobs)]

def ofToml (v : Document) : Except String AutomationDoc := do
  let t ← asTable v
  let format ← required t "format" asString
  let flows ← defaulted t "flow" (asList FlowDoc.ofToml) []
  let flowTests ← defaulted t "flow_test" (asList FlowTestDoc.ofToml) []
  let connections ← defaulted t "connection" (asList ConnectionDoc.ofToml) []
  let jobs ← defaulted t "job" (asList JobDoc.ofToml) []
  .ok ⟨format, flows, flowTests, connections, jobs⟩

end AutomationDoc

/-! ## The text of an automation -/

namespace Automation

variable {τ : Type} (toml : TomlLibrary τ)

def doc (a : Automation ConnectionSpec) : AutomationDoc where
  format := automationFormatTag
  flows := a.flows.toList.map fun e => flowDoc e.2
  flowTests := a.flowTests.toList.map fun e => flowTestDoc e.2
  connections := a.connections.toList.map fun e => connectionDoc e.2
  jobs := a.jobs.toList.map fun e => jobDoc e.2

/-- The text of the automation objects; the error is a message. -/
def toModelText (a : Automation ConnectionSpec) : Except String τ :=
  toml.write (record a.doc.fields)

def fromModelText (text : τ) : Except LoadError (Automation ConnectionSpec) := do
  let v ← (toml.read text).mapError fun _ => .toml
  let doc ← (AutomationDoc.ofToml v).mapError fun _ => .toml
  if doc.format ≠ automationFormatTag then .error (.unknownFormat doc.format)
  else .ok (automationFromDocs doc.flows doc.flowTests doc.connections doc.jobs)

end Automation

end Epiphany

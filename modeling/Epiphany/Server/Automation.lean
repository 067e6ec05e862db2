import Epiphany.Server.Authz
import Epiphany.Server.Migration
/-!
# Automation — the requests on connections and flows

A connection's target is shown to administrators only, and so is that of a
connection inside a flow. A flow keeps the owner it was first written by,
unless an administrator names another.
-/

namespace Epiphany

/-! ## Connections -/

inductive SourceFormat where
  | csv
  | json
deriving DecidableEq

structure CommandSpec where
  program : String
  args : List String
  format : SourceFormat
  jsonPath : Option String
  timeoutMs : Nat
  workingDir : Option String
deriving DecidableEq

inductive HttpAuthKind where
  | bearer
  | basic
deriving DecidableEq

/-- A credential, by the name of its secret. -/
structure HttpAuth where
  kind : HttpAuthKind
  secret : String
deriving DecidableEq

structure HttpSpec where
  url : String
  headers : List (String × String)
  auth : Option HttpAuth
  format : SourceFormat
  jsonPath : Option String
  timeoutMs : Nat
deriving DecidableEq

inductive SqlEngine where
  | postgres
  | mySql
deriving DecidableEq

inductive SqlSslMode where
  | verifyFull
  | require
  | disable
deriving DecidableEq

structure SqlSpec where
  engine : SqlEngine
  host : String
  port : Nat
  database : String
  user : String
  passwordSecret : Option String
  query : String
  sslMode : SqlSslMode
  timeoutMs : Nat
deriving DecidableEq

inductive ConnectionSpec where
  | command (spec : CommandSpec)
  | http (spec : HttpSpec)
  | sql (spec : SqlSpec)
deriving DecidableEq

def formatToken : SourceFormat → String
  | .csv => "csv"
  | .json => "json"

def authKindToken : HttpAuthKind → String
  | .bearer => "bearer"
  | .basic => "basic"

def sqlEngineToken : SqlEngine → String
  | .postgres => "postgres"
  | .mySql => "mysql"

def sslModeToken : SqlSslMode → String
  | .verifyFull => "verify-full"
  | .require => "require"
  | .disable => "disable"

/-- A connection in its flat form; the fields of other kinds are empty. -/
structure ConnectionDto where
  name : String
  kind : String
  program : String := ""
  args : List String := []
  format : String := ""
  jsonPath : Option String := none
  timeoutMs : Nat := 0
  workingDir : Option String := none
  url : String := ""
  headers : List (String × String) := []
  auth : Option (String × String) := none
  engine : String := ""
  host : String := ""
  port : Nat := 0
  database : String := ""
  user : String := ""
  passwordSecret : Option String := none
  query : String := ""
  sslMode : String := ""
deriving DecidableEq

/-- What only administrators are shown; others see an empty value. -/
def redact {α : Type} (isAdmin : Bool) (value hidden : α) : α := if isAdmin then value else hidden

def connectionDto (name : String) (spec : ConnectionSpec) (isAdmin : Bool) : ConnectionDto :=
  match spec with
  | .command cmd =>
    { name, kind := "command"
      program := redact isAdmin cmd.program ""
      args := redact isAdmin cmd.args []
      format := formatToken cmd.format
      jsonPath := redact isAdmin cmd.jsonPath none
      timeoutMs := cmd.timeoutMs
      workingDir := redact isAdmin cmd.workingDir none }
  | .http http =>
    { name, kind := "http"
      format := formatToken http.format
      jsonPath := http.jsonPath
      timeoutMs := http.timeoutMs
      url := redact isAdmin http.url ""
      headers := redact isAdmin http.headers []
      auth := http.auth.map fun a => (authKindToken a.kind, a.secret) }
  | .sql sql =>
    { name, kind := "sql"
      engine := sqlEngineToken sql.engine
      host := redact isAdmin sql.host ""
      port := sql.port
      database := redact isAdmin sql.database ""
      user := redact isAdmin sql.user ""
      passwordSecret := sql.passwordSecret
      query := redact isAdmin sql.query ""
      sslMode := sslModeToken sql.sslMode
      timeoutMs := sql.timeoutMs }

/-! ## Flows -/

structure FlowInputDto where
  name : String
  scope : String
  connection : Option ConnectionDto
deriving DecidableEq

structure FlowDto where
  name : String
  source : String
  owner : Option String
  defaultCube : Option String
  inputs : List FlowInputDto
deriving DecidableEq

def inputDto (input : FlowInput ConnectionSpec) (isAdmin : Bool) : FlowInputDto :=
  match input.binding with
  | .global => ⟨input.name, "global", none⟩
  | .local spec => ⟨input.name, "local", some (connectionDto input.name spec isAdmin)⟩

def flowDto (flow : Flow ConnectionSpec) (isAdmin : Bool) : FlowDto :=
  ⟨flow.name, flow.source, flow.owner, flow.defaultCube,
    flow.inputs.map fun input => inputDto input isAdmin⟩

/-- The body of a flow. The checks of its source and its inputs do not look
at the caller; `inputs` is their outcome. -/
structure FlowBody where
  source : String
  owner : Option String
  defaultCube : Option String
  inputs : Except ApiError (List (FlowInput ConnectionSpec))

/-- The owner of a flow that is written: an administrator may name one, and
anyone else keeps the one there is, or becomes it. -/
def flowOwner (p : Principal) (requested existing : Option String) : Option String :=
  if p.isAdmin then requested <|> existing <|> some p.username else existing <|> some p.username

namespace Automation

variable (a : Automation ConnectionSpec) (sec : SecurityStore) (auth : Principal)

def listConnections : Except ApiError (List ConnectionDto) := do
  sec.requireKindAccess auth.username .connection none .read
  .ok (a.connections.toList.map fun e => connectionDto e.2.name e.2.spec auth.isAdmin)

def getConnection (name : String) : Except ApiError ConnectionDto := do
  sec.requireKindAccess auth.username .connection none .read
  let conn ← okOr a.connections[name]? (.notFound ("unknown connection '" ++ name ++ "'"))
  .ok (connectionDto conn.name conn.spec auth.isAdmin)

/-- The connection that a request defines, and what its caller is shown. -/
def putConnection (name : String) (spec : Except ApiError ConnectionSpec) :
    Except ApiError (Connection ConnectionSpec × ConnectionDto) := do
  sec.requireKindAccess auth.username .connection none .write
  let spec ← spec
  .ok (⟨name, spec⟩, connectionDto name spec auth.isAdmin)

def listFlows : Except ApiError (List FlowDto) := do
  sec.requireKindAccess auth.username .flow none .read
  .ok (a.flows.toList.map fun e => flowDto e.2 auth.isAdmin)

def getFlow (name : String) : Except ApiError FlowDto := do
  sec.requireKindAccess auth.username .flow none .read
  let flow ← okOr a.flows[name]? (.notFound ("unknown flow '" ++ name ++ "'"))
  .ok (flowDto flow auth.isAdmin)

/-- The flow that a request stores; its author is shown it whole. -/
def putFlow (name : String) (body : FlowBody) :
    Except ApiError (Flow ConnectionSpec) := do
  sec.requireKindAccess auth.username .flow none .write
  let inputs ← body.inputs
  let existing := (a.flows[name]?).bind Flow.owner
  .ok ⟨name, body.source, flowOwner auth body.owner existing, body.defaultCube, inputs⟩

end Automation

end Epiphany

import Dcfs.Sessions.Records
import Dcfs.Sessions.Router
import Dcfs.State.Reachable

/-! The server behind its routes: the two layers, signing in and out, issuing and revoking sessions. -/

namespace Dcfs.Sessions

open Effects Text

inductive Body
  | empty | page
  | text (text : String)
  | status (status : String)
  | apiError (code : ErrorCode) (message : String)
  | session (id : Uuid) (token : Chars) (expiresAt : Time)
  | bytes (bytes : Bytes)

structure Response where
  status : ℕ
  body : Body
  setCookie : Option Chars

def Response.ofError (e : AppError) : Response := ⟨e.status, .apiError e.code e.message, none⟩

structure CreateSessionRequest where
  ttlSecs : Option ℤ
  label : Option String

/--
A server as it is set up. `hash` is the digest of a token in hexadecimal; the `read` fields are what
the framework makes of a body or a path parameter; the API and WebDAV handlers are any programs over
the server's calls.
-/
structure Service where
  cfg : Config
  faults : Faults
  apiToken : Option Chars
  axum : Matcher
  hash : Bytes → String
  readLogin : HttpRequest → Except Response Chars
  readSession : HttpRequest → Option CreateSessionRequest
  readUuid : List String → Except Response Uuid
  serveDav : HttpRequest → Program Api Response
  serveApi : ApiHandler → List String → HttpRequest → Program Api Response

abbrev Draw := Except String (Fin 32 → UInt8)

inductive Dispatch
  | refused (response : Response)
  | run (handler : Handler) (params : List String)

namespace Service

variable (s : Service)

def hashToken (token : Chars) : String := s.hash (asBytes token)

def unauthorized (message : String) : Response := ⟨401, .apiError .unauthorized message, none⟩

def requireToken (w : World) (r : HttpRequest) : Option Response :=
  -- No answer of a layer means that the request goes on.
  match s.apiToken with
  | none => none
  | some expected =>
    if tokenMatches r.presented expected then none
    else if r.presented = [] then some (unauthorized "unauthorized")
    else match w.findSession (s.hashToken r.presented) with
      | .ok _ => none
      | .error _ => some (unauthorized "unauthorized")

def requireBootstrapToken (r : HttpRequest) : Option Response :=
  match s.apiToken with
  | none => none
  | some expected =>
    if tokenMatches r.presented expected then none
    else some (unauthorized "this endpoint needs the bootstrap token")

def pass (w : World) (r : HttpRequest) : Layer → Option Response
  | .bare => none
  | .requireToken => s.requireToken w r
  | .requireBootstrapToken => s.requireBootstrapToken r

def dispatch (w : World) (r : HttpRequest) : Dispatch :=
  match route s.axum r with
  | none => .refused ⟨404, .empty, none⟩
  | some (layer, target) =>
    match s.pass w r layer, target with
    | some response, _ => .refused response
    | none, .methodNotAllowed => .refused ⟨405, .empty, none⟩
    | none, .handler handler params => .run handler params

def reached (w : World) (r : HttpRequest) : Option Handler :=
  match s.dispatch w r with
  | .run handler _ => some handler
  | .refused _ => none

def second : Time := 1000000000

def issue (draw : Draw) (label : String) (ttl : ℤ) (w : World) : Except AppError (Chars × SessionRecord) × World :=
  match draw with
  | .error e => (.error (.internal ("cannot generate a token: " ++ e)), w)
  | .ok bytes =>
    let token := hexToken bytes
    match w.nextId.tick.createSession s.cfg.backend w.nextUuid (s.hashToken token) label (w.now + ttl * second) with
    | (.ok record, u) => (.ok (token, record), u)
    | (.error e, u) => (.error (.ofRepository e), u)

def maxTtlSecs : ℤ := 30 * 24 * 60 * 60
def defaultTtlSecs : ℤ := 24 * 60 * 60

def createSession (draw : Draw) (r : HttpRequest) (w : World) : Response × World :=
  let request := (s.readSession r).getD ⟨none, none⟩
  let ttl := max 1 (min (request.ttlSecs.getD defaultTtlSecs) maxTtlSecs)
  let label := request.label.getD ""
  if 200 < label.utf8ByteSize then (.ofError (.badRequest "label is too long"), w)
  else match s.issue draw label ttl w with
    | (.ok (token, record), u) => (⟨201, .session record.id token record.expiresAt, none⟩, u)
    | (.error e, u) => (.ofError e, u)

def revokeSession (params : List String) (w : World) : Response × World :=
  match s.readUuid params with
  | .error response => (response, w)
  | .ok id =>
    match w.revokeSession id with
    | (.ok _, u) => (⟨204, .empty, none⟩, u)
    | (.error e, u) => (.ofError (.ofRepository e), u)

def sessionSecs : ℤ := 12 * 3600

def overTls (r : HttpRequest) : Bool :=
  match r.header "x-forwarded-proto" with
  | some proto => proto.map Char.toLower == "https".toList
  | none => false

def cookie (token : Chars) (r : HttpRequest) : Chars :=
  "dcfs_session=".toList ++ token ++ "; HttpOnly; SameSite=Strict; Path=/; Max-Age=43200".toList
    ++ if overTls r then "; Secure".toList else []

def login (draw : Draw) (r : HttpRequest) (w : World) : Response × World :=
  match s.readLogin r with
  | .error response => (response, w)
  | .ok token =>
    match s.apiToken with
    | none => (.ofError (.internal "no API token is configured"), w)
    | some expected =>
      if tokenMatches token expected then
        match s.issue draw "browser" sessionSecs w with
        | (.ok (token, _), u) => (⟨204, .empty, some (cookie token r)⟩, u)
        | (.error e, u) => (.ofError e, u)
      else (⟨401, .text "wrong token", none⟩, w)

def cleared : Chars := "dcfs_session=; HttpOnly; SameSite=Strict; Path=/; Max-Age=0".toList

def logout (r : HttpRequest) (w : World) : Response × World :=
  let signedOut : World := match r.cookieToken with
    | none => w
    | some token =>
      match w.findSession (s.hashToken token) with
      | .ok session => (w.revokeSession session.id).2
      | .error _ => w
  (⟨204, .empty, some cleared⟩, signedOut)

def serve (draw : Draw) (r : HttpRequest) (w : World) : Handler → List String → Response × World
  | .page, _ => (⟨200, .page, none⟩, w)
  | .login, _ => s.login draw r w
  | .logout, _ => s.logout r w
  | .healthCheck, _ => (⟨200, .status "ok", none⟩, w)
  | .readinessCheck, _ => (⟨200, .status "ready", none⟩, w)
  | .createSession, _ => s.createSession draw r w
  | .revokeSession, params => s.revokeSession params w
  | .serveDav, _ => Program.run (handle s.cfg s.faults) (s.serveDav r) w
  | .api handler, params => Program.run (handle s.cfg s.faults) (s.serveApi handler params r) w

def respond (draw : Draw) (r : HttpRequest) (w : World) : Response × World :=
  match s.dispatch w r with
  | .refused response => (response, w)
  | .run handler params => s.serve draw r w handler params

end Service

inductive Event
  | request (r : HttpRequest) (draw : Draw)
  | collect (retention : ℕ)
  | wait (time : ℕ)

namespace Service

variable (s : Service)

def after (w : World) : Event → World
  | .request r draw => (s.respond draw r w).2
  | .collect retention => (exec s.cfg s.faults (collectOnce retention) w).2
  | .wait time => w.pass time

def run (w : World) (events : List Event) : World := events.foldl s.after w

end Service

end Dcfs.Sessions

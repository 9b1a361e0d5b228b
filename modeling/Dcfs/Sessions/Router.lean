import Dcfs.Sessions.Token
import Dcfs.Server.Request

namespace Dcfs.Sessions

open Text

inductive Method
  | get | head | post | put | patch | delete
  | other (name : String)
  deriving DecidableEq

structure HttpRequest where
  method : Method
  path : List String
  headers : List (String × Bytes)
  body : Bytes

def HttpRequest.header (r : HttpRequest) (name : String) : Option Chars := do
  let (_, value) ← r.headers.find? fun h => h.1 == name
  toStr value

def HttpRequest.cookieToken (r : HttpRequest) : Option Chars := (r.header "cookie").bind sessionCookie

def HttpRequest.presented (r : HttpRequest) : Chars :=
  (((r.header "authorization").bind presentedToken).or r.cookieToken).getD []

inductive Segment
  | lit (text : String)
  | param
  | rest
  deriving DecidableEq

inductive MethodRouter
  | only (method : Method)
  | any
  deriving DecidableEq

inductive ApiHandler
  | getFsInfo | getRoot | getNode | deleteNode | patchNode | renameNode | publishNode | listChildren
  | lookupChild | createNode | resolvePath | readData | writeData | syncNode | stageVersion | uploadChunk
  | listChunks | commitVersion | getVersion | getObject
  deriving DecidableEq

inductive Handler
  | page | login | logout | healthCheck | readinessCheck | createSession | revokeSession | serveDav
  | api (handler : ApiHandler)
  deriving DecidableEq

inductive Layer
  | bare | requireToken | requireBootstrapToken
  deriving DecidableEq

structure Route where
  layer : Layer
  path : List Segment
  methods : MethodRouter
  handler : Handler
  deriving DecidableEq

def ui (path : List Segment) (method : Method) (handler : Handler) : Route :=
  ⟨.bare, .lit "ui" :: path, .only method, handler⟩

def dav (path : List Segment) : Route := ⟨.requireToken, .lit "dav" :: path, .any, .serveDav⟩

def health (path : List Segment) (handler : Handler) : Route :=
  ⟨.bare, .lit "health" :: path, .only .get, handler⟩

def sessions (path : List Segment) (method : Method) (handler : Handler) : Route :=
  ⟨.requireBootstrapToken, .lit "api" :: .lit "v1" :: .lit "sessions" :: path, .only method, handler⟩

def api (path : List Segment) (method : Method) (handler : ApiHandler) : Route :=
  ⟨.requireToken, .lit "api" :: .lit "v1" :: path, .only method, .api handler⟩

def apiRoutes : List Route :=
  [ api [.lit "fs"] .get .getFsInfo,
    api [.lit "nodes", .lit "root"] .get .getRoot,
    api [.lit "nodes", .param] .get .getNode,
    api [.lit "nodes", .param] .delete .deleteNode,
    api [.lit "nodes", .param] .patch .patchNode,
    api [.lit "nodes", .param, .lit "rename"] .post .renameNode,
    api [.lit "nodes", .param, .lit "publish"] .post .publishNode,
    api [.lit "nodes", .param, .lit "children"] .get .listChildren,
    api [.lit "nodes", .param, .lit "children", .param] .get .lookupChild,
    api [.lit "nodes"] .post .createNode,
    api [.lit "nodes", .lit "resolve"] .get .resolvePath,
    api [.lit "nodes", .param, .lit "data"] .get .readData,
    api [.lit "nodes", .param, .lit "data"] .put .writeData,
    api [.lit "nodes", .param, .lit "sync"] .post .syncNode,
    api [.lit "versions", .lit "stage"] .post .stageVersion,
    api [.lit "versions", .param, .lit "chunks"] .post .uploadChunk,
    api [.lit "versions", .param, .lit "chunks"] .get .listChunks,
    api [.lit "versions", .param, .lit "commit"] .post .commitVersion,
    api [.lit "versions", .param] .get .getVersion,
    api [.lit "objects", .param] .get .getObject ]

def buildRouter : List Route :=
  [ui [] .get .page, ui [.lit "login"] .post .login, ui [.lit "logout"] .post .logout,
    dav [], dav [.rest],
    health [] .healthCheck, health [.lit "ready"] .readinessCheck,
    sessions [] .post .createSession, sessions [.param] .delete .revokeSession] ++ apiRoutes

/--
How axum finds the route of a request in a table, left open: a route whose path fits, with the path's parameters
if the route takes the method. All that is asked of it is that the route is one of the table.
-/
structure Matcher where
  find : List Route → HttpRequest → Option (Route × Option (List String))
  find_mem : ∀ {routes r found params}, find routes r = some (found, params) → found ∈ routes

inductive Target
  | methodNotAllowed
  | handler (handler : Handler) (params : List String)

def route (axum : Matcher) (r : HttpRequest) : Option (Layer × Target) := do
  let (found, params) ← axum.find buildRouter r
  match params with
  | none => return (found.layer, .methodNotAllowed)
  | some params => return (found.layer, .handler found.handler params)

def Handler.layer : Handler → Layer
  | .page | .login | .logout | .healthCheck | .readinessCheck => .bare
  | .createSession | .revokeSession => .requireBootstrapToken
  | .serveDav | .api _ => .requireToken

theorem buildRouter_layer : ∀ route ∈ buildRouter, route.layer = route.handler.layer := by decide

theorem route_layer {axum : Matcher} {r : HttpRequest} {layer : Layer} {handler : Handler} {params : List String}
    (h : route axum r = some (layer, .handler handler params)) : layer = handler.layer := by
  simp only [route, Option.bind_eq_bind, Option.bind_eq_some_iff] at h
  obtain ⟨⟨found, taken⟩, hfound, h⟩ := h
  cases taken with
  | none => cases h
  | some params =>
    cases h
    exact buildRouter_layer found (axum.find_mem hfound)

end Dcfs.Sessions

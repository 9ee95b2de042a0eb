/-
The path of a request, made canonical: its segments unescaped, and written again as a URL writes
them.
-/
import Cosmic.Base.Parts
import Cosmic.Base.Table
import Cosmic.Base.Trie
import Mathlib.Data.List.Sort

set_option autoImplicit false

namespace Cosmic.Web

open Cosmic.Base

/-! ## Escapes -/

namespace Url

def refuse (why : Bytes) : Bytes := lit "url: " ++ why

/-- `[A-Za-z0-9._~-]` -/
def is_unreserved (b : UInt8) : Bool := isAlpha b || isDigit b || b == 46 || b == 95 || b == 126 || b == 45

def upper_digit (n : UInt8) : UInt8 := if n < 10 then 48 + n else 55 + n

/-- `text` with every byte but the unreserved ones written as `%` and two digits. -/
def escape (text : Bytes) : Bytes :=
  text.flatMap fun b => if is_unreserved b then [b] else [37, upper_digit (b / 16), upper_digit (b % 16)]

/-- `text` with each `%` and two hexadecimal digits replaced by the byte they spell; `i` is where it begins. -/
def unescape : ℕ → Bytes → Except Bytes Bytes
  | _, [] => .ok []
  | i, b :: s =>
    if b = 37 then
      match s with
      | x :: y :: s' =>
        if isHex x && isHex y then
          match unescape (i + 3) s' with
          | .error why => .error why
          | .ok bytes => .ok (UInt8.ofNat (digits_value 16 [x, y]) :: bytes)
        else .error (refuse (lit "'%' at byte " ++ tostring i ++ lit " is not followed by two hex digits"))
      | _ => .error (refuse (lit "'%' at byte " ++ tostring i ++ lit " is not followed by two hex digits"))
    else
      match unescape (i + 1) s with
      | .error why => .error why
      | .ok bytes => .ok (b :: bytes)

/-- The segments that pieces of a path spell, the first of which begins at byte `i`. -/
def segments_of : ℕ → List Bytes → Except Bytes (List Bytes)
  | _, [] => .ok []
  | i, piece :: pieces =>
    if piece = [] then segments_of (i + 1) pieces
    else
      match unescape i piece with
      | .error why => .error why
      | .ok text =>
        if text = lit ".." then
          .error (refuse (lit "the segment at byte " ++ tostring i ++ lit " is '..', which climbs out of the path"))
        else if text.contains 47 then
          .error (refuse (lit "the segment at byte " ++ tostring i ++ lit " holds an escaped '/'"))
        else if text.contains 0 then
          .error (refuse (lit "the segment at byte " ++ tostring i ++ lit " holds a NUL"))
        else
          match segments_of (i + piece.length + 1) pieces with
          | .error why => .error why
          | .ok texts => .ok (if text = lit "." then texts else text :: texts)

def segments (path : Bytes) : Except Bytes (List Bytes) :=
  if path.take 1 = lit "/" then segments_of 2 ((path.drop 1).splitOn 47)
  else .error (refuse (lit "the path does not start with '/'"))

end Url

/-! ## Canonical paths -/

structure Canon where
  path : Bytes
  segments : List Bytes
  trailing : Bool
  changed : Bool
deriving DecidableEq, Repr

/-- The canonical path of `segments`, with a trailing slash where `slash` says and a segment precedes it. -/
def path_of (segments : List Bytes) (slash : Bool) : Bytes :=
  if segments = [] then lit "/"
  else lit "/" ++ concat (lit "/") (segments.map Url.escape) ++ (if slash then lit "/" else [])

/-- `path` in its canonical form, or why it is refused. -/
def canonical (path : Bytes) : Except Bytes Canon :=
  match Url.segments path with
  | .error why => .error why
  | .ok segments =>
    let rest := path.drop 1
    let slashes := rest.count 47
    let last_empty := rest = [] || rest.getLast? = some 47
    let kept := if last_empty then slashes else slashes + 1
    let trailing := last_empty && segments.length > 0
    .ok { path := path_of segments trailing, segments, trailing, changed := kept != segments.length }

/-!
The router: patterns compiled to a trie of segments, and a lookup that prefers the most specific
route.

A handler and a middleware are whatever they are (`H`, `M`), and `compose` folds middleware around a
handler. A node's children are by step: `literal[text]` is the child at `.literal text`, and `param`
the child at `.any`. `names` and `verbs`, which every level of a tree shares, are kept beside it.
-/

/-! ## Routes and what they compile to -/

inductive SegmentKind where
  | literal
  | param
  | rest
deriving DecidableEq, Repr

/-- A segment of a pattern: a literal's text, or a parameter's name. -/
structure Segment where
  kind : SegmentKind
  text : Bytes
deriving DecidableEq, Repr

inductive TrailingSlash where
  | redirect
  | strict
deriving DecidableEq, Repr

structure RouteInfo where
  name : Bytes
  pattern : Bytes
  methods : List Bytes
deriving DecidableEq, Repr

inductive Route (H M : Type) where
  | leaf (methods : List Bytes) (pattern name : Bytes) (handler : Option H) (middleware : List M)
  | fallback (pattern name : Bytes) (middleware : List M) (handler : H)
  | mount (pattern name : Bytes) (middleware : List M) (routes : List (Route H M))

/-- One route at a node, for one method. -/
structure Terminal (H : Type) where
  info : RouteInfo
  names : List Bytes
  slash : Bool
  handler : H

/-- The routes that end at one node, by method. -/
structure Methods (H : Type) where
  by_method : Table Bytes (Terminal H)

/-- What a segment of a path is matched by. -/
inductive Step where
  | literal (text : Bytes)
  | any
deriving DecidableEq, Repr

/-- What stands at a node: the routes whose pattern ends there, those that end there in `*name`, and a mount. -/
structure Content (μ H : Type) where
  exact : Option (Methods H) := none
  wild : Option (Methods H) := none
  mount : Option μ := none

structure RouterOf (μ H : Type) where
  root : Trie Step (Content μ H)
  policy : TrailingSlash
  miss : H
  mount_path : Bytes

/-- What a mount makes of the segments after its prefix. -/
inductive Mount (H : Type) where
  | handler ( at_prefix : Bytes) (info : RouteInfo) (handler : H)
  | router ( at_prefix : Bytes) (router : RouterOf (Mount H) H)

abbrev Node (H : Type) : Type := Trie Step (Content (Mount H) H)

abbrev Router (H : Type) : Type := RouterOf (Mount H) H

def new_node (H : Type) : Node H := Trie.bare {}

/-! ## Patterns -/

/-- A pattern read. -/
structure Parsed where
  segments : List Segment
  slash : Bool
  names : List Bytes
  wild : Bool
deriving DecidableEq, Repr

/-- `^[A-Za-z_][A-Za-z0-9_]*$` -/
def is_name (s : Bytes) : Bool :=
  match s with
  | [] => false
  | b :: s => (isAlpha b || b == 95) && s.all isWord

/-- `^[A-Z][A-Z0-9_-]*$` -/
def is_method (s : Bytes) : Bool :=
  match s with
  | [] => false
  | b :: s => isUpper b && s.all fun b => isUpper b || isDigit b || b == 95 || b == 45

/-- Reads the pieces of a pattern after those in `parsed`. -/
def parse_pieces (mount : Bool) : List Bytes → Parsed → Except Bytes Parsed
  | [], parsed => .ok parsed
  | piece :: pieces, parsed =>
    if piece = [] then .error (lit "the pattern holds an empty segment")
    else if parsed.wild then .error (lit "'*name' must be the last segment")
    else if piece.head? = some 58 ∨ piece.head? = some 42 then
      let name := piece.drop 1
      if !is_name name then
        .error (lit "'" ++ piece ++
          lit "' is not a parameter name (letters, digits and '_', not starting with a digit)")
      else if mount then .error (lit "a mount's prefix holds no parameter")
      else if parsed.names.contains name then .error (lit "the parameter '" ++ name ++ lit "' is named twice")
      else
        let wild := piece.head? = some 42
        parse_pieces mount pieces { parsed with
            names := parsed.names ++ [name], wild
            segments := parsed.segments ++ [{ kind := if wild then .rest else .param, text := name }] }
    else if piece.contains 58 || piece.contains 42 then
      .error (lit "the segment '" ++ piece ++ lit "' mixes text with a parameter")
    else if piece = lit "." ∨ piece = lit ".." then
      .error (lit "the segment '" ++ piece ++ lit "' can never match a canonical path")
    else
      parse_pieces mount pieces { parsed with segments := parsed.segments ++ [{ kind := .literal, text := piece }] }

/-- Reads `pattern`. -/
def parse (pattern : Bytes) (mount : Bool) : Except Bytes Parsed :=
  if pattern.take 1 ≠ lit "/" then .error (lit "the pattern must start with '/'")
  else if pattern.any isControl then .error (lit "the pattern holds a control byte")
  else if pattern = lit "/" then .ok { segments := [], slash := false, names := [], wild := false }
  else
    let rest := pattern.drop 1
    let slash := rest.getLast? = some 47
    let rest := if slash then rest.dropLast else rest
    match parse_pieces mount (rest.splitOn 47) { segments := [], slash, names := [], wild := false } with
    | .error why => .error why
    | .ok parsed => .ok (if parsed.wild then { parsed with slash := false } else parsed)

def pattern_text (segments : List Segment) (slash : Bool) : Bytes :=
  let out := segments.map fun segment =>
    match segment.kind with
    | .literal => segment.text
    | .param => lit ":" ++ segment.text
    | .rest => lit "*" ++ segment.text
  lit "/" ++ concat (lit "/") out ++ (if slash && out.length > 0 then lit "/" else [])

/-- `%q` -/
def quote_text : Bytes → Bytes
  | s => lit "\"" ++ go s ++ lit "\""
where
  go : Bytes → Bytes
    | [] => []
    | b :: s =>
      (if b == 34 || b == 92 || b == 10 then [92, b]
      else if isControl b then
        match s with
        | c :: _ => if isDigit c then 92 :: (List.replicate (3 - (tostring b.toNat).length) 48 ++ tostring b.toNat)
            else 92 :: tostring b.toNat
        | [] => 92 :: tostring b.toNat
      else [b]) ++ go s

/-- What a route that cannot be registered raises. -/
def refuse (what why : Bytes) : Bytes := lit "web: route " ++ what ++ lit ": " ++ why

/-! ## Compiling -/

/-- The names and the methods of a whole tree. -/
structure Tables where
  names : List Bytes
  verbs : List Bytes
deriving DecidableEq, Repr

/-- What the compiling of one level is given beyond its routes. -/
structure Context (H M : Type) where
  policy : TrailingSlash
  terminal : H
  chain : List M
  at_prefix : List Bytes
  keep_prefix : Bool
  name_prefix : Bytes

/-- The first segment of the paths an app serves its own files at. -/
def RESERVED : Bytes := lit "_web"

/-- The steps of a pattern's segments, up to a `*name`. -/
def steps : List Segment → List Step
  | [] => []
  | segment :: segments =>
    match segment.kind with
    | .literal => .literal segment.text :: steps segments
    | .param => .any :: steps segments
    | .rest => []

/-- Whether the path of `segments` below the mounts' prefix starts with the reserved segment. -/
def reserved ( at_prefix : List Bytes) (segments : List Segment) : Bool :=
  match at_prefix, segments with
  | first :: _, _ => first == RESERVED
  | [], first :: _ => first.kind == .literal && first.text == RESERVED
  | [], [] => false

/-- The segments of the prefix built so far, then `segments`. -/
def joined ( at_prefix : List Bytes) (segments : List Segment) : List Segment :=
  at_prefix.map (fun text => { kind := .literal, text }) ++ segments

section

variable {H M : Type}

def Mount.at_prefix : Mount H → Bytes
  | .handler at_prefix _ _ => at_prefix
  | .router at_prefix _ => at_prefix

def pass (what : Bytes) (content : Content (Mount H) H) : Except Bytes Unit :=
  match content.mount with
  | some mount =>
    .error (refuse what (lit "it is under the mount at " ++ mount.at_prefix ++ lit ", which answers every path below it"))
  | none => .ok ()

/-- Adds the route at `terminal` under each of its methods. -/
def add_methods (what : Bytes) (terminal : Terminal H) :
    List Bytes → Table Bytes (Terminal H) → List Bytes → Except Bytes (Table Bytes (Terminal H) × List Bytes)
  | [], by_method, verbs => .ok (by_method, verbs)
  | method :: methods, by_method, verbs =>
    if !is_method method then .error (refuse what (quote_text method ++ lit " is not a method in capitals"))
    else
      match by_method.lookup method with
      | some taken =>
        .error (refuse what (method ++ lit " is already answered for the same paths by " ++ taken.info.pattern))
      | none =>
        add_methods what terminal methods (by_method.insert method terminal)
          (if verbs.contains method then verbs else verbs ++ [method])

/-- Adds a name, refusing one that is taken. -/
def name_it (names : List Bytes) (full what : Bytes) : Except Bytes (List Bytes) :=
  if names.contains full then .error (refuse what (lit "the name '" ++ full ++ lit "' is already used"))
  else .ok (names ++ [full])

def full_name (ctx : Context H M) (name : Bytes) : Bytes := if name = [] then [] else ctx.name_prefix ++ name

def empty (node : Node H) : Bool :=
  node.children.isEmpty && node.value.exact.isNone && node.value.wild.isNone && node.value.mount.isNone

variable (compose : List M → H → H)

/-- The routes at a node with one route's more. -/
def place_leaf (what : Bytes) (terminal : Terminal H) (methods : List Bytes) (wild : Bool) (verbs : List Bytes)
    (node : Node H) : Except Bytes (Content (Mount H) H × List Bytes) :=
  let held := if wild then node.value.wild else node.value.exact
  match add_methods what terminal methods ((held.map Methods.by_method).getD ∅) verbs with
  | .error why => .error why
  | .ok (by_method, verbs) =>
    .ok (if wild then { node.value with wild := some ⟨by_method⟩ } else { node.value with exact := some ⟨by_method⟩ },
      verbs)

/-- The route of a pattern, under the mounts around it. -/
def terminal_of (ctx : Context H M) (parsed : Parsed) (methods : List Bytes) (name : Bytes) (handler : H)
    (middleware : List M) : Terminal H :=
  { info :=
      { name := full_name ctx name, pattern := pattern_text (joined ctx.at_prefix parsed.segments) parsed.slash, methods }
    names := parsed.names
    slash := parsed.slash
    handler := compose (ctx.chain ++ middleware) handler }

def add_leaf (ctx : Context H M) (methods : List Bytes) (pattern name : Bytes) (handler : Option H)
    (middleware : List M) (root : Node H) (tables : Tables) : Except Bytes (Node H × Tables) :=
  let what := quote_text pattern
  match parse pattern false with
  | .error why => .error (refuse what why)
  | .ok parsed =>
    match handler with
    | none => .error (refuse what (lit "it has no handler"))
    | some handler =>
      if methods = [] then .error (refuse what (lit "it names no method"))
      else if ctx.keep_prefix && reserved ctx.at_prefix parsed.segments then
        .error (refuse what (lit "/_web/ is reserved for cosmic.web's own assets"))
      else
        let terminal := terminal_of compose ctx parsed methods name handler middleware
        match Trie.alter {} (pass what) (place_leaf what terminal methods parsed.wild tables.verbs)
            (steps parsed.segments) root with
        | .error why => .error why
        | .ok (root, verbs) =>
          if full_name ctx name = [] then .ok (root, { tables with verbs })
          else
            match name_it tables.names (full_name ctx name) what with
            | .error why => .error why
            | .ok names => .ok (root, { names, verbs })

/-- What a mount of routes compiles them with. -/
def inner_context (ctx : Context H M) (segments : List Segment) (name : Bytes) (middleware : List M) : Context H M :=
  { ctx with
    chain := ctx.chain ++ middleware
    at_prefix := ctx.at_prefix ++ segments.map Segment.text
    name_prefix := if name = [] then ctx.name_prefix else ctx.name_prefix ++ name ++ lit ":" }

def full_prefix (ctx : Context H M) (segments : List Segment) : Bytes := pattern_text (joined ctx.at_prefix segments) false

/-- The content of a node with a mount at it; `made` answers the mount, once the node is known to be free. -/
def place_mount (what name : Bytes) (made : Parsed → Except Bytes (Mount H × Tables)) (parsed : Parsed) (node : Node H) :
    Except Bytes (Content (Mount H) H × Tables) :=
  if !empty node then
    .error (refuse what (lit "routes already stand at or under its prefix, which the mount answers"))
  else if name ≠ [] ∧ name.contains 58 then .error (refuse what (lit "a mount's name holds no ':'"))
  else
    match made parsed with
    | .error why => .error why
    | .ok (mount, tables) => .ok ({ node.value with mount := some mount }, tables)

def add_mount (ctx : Context H M) (pattern name : Bytes)
    (made : Parsed → Except Bytes (Mount H × Tables)) (root : Node H) : Except Bytes (Node H × Tables) :=
  let what := lit "mount " ++ quote_text pattern
  match parse pattern true with
  | .error why => .error (refuse what why)
  | .ok parsed =>
    if ctx.keep_prefix && reserved ctx.at_prefix parsed.segments then
      .error (refuse what (lit "/_web/ is reserved for cosmic.web's own assets"))
    else
      match Trie.alter {} (pass what) (place_mount what name made parsed) (steps parsed.segments) root with
      | .error why => .error why
      | .ok (root, tables) =>
        if name = [] then .ok (root, tables)
        else
          match name_it tables.names (ctx.name_prefix ++ name) what with
          | .error why => .error why
          | .ok names => .ok (root, { tables with names })

def handler_mount (ctx : Context H M) (name : Bytes) (middleware : List M) (handler : H) (tables : Tables)
    (parsed : Parsed) : Except Bytes (Mount H × Tables) :=
  let at_prefix := full_prefix ctx parsed.segments
  .ok (.handler at_prefix
    { name := full_name ctx name
      pattern := if at_prefix = lit "/" then lit "/*" else at_prefix ++ lit "/*"
      methods := [] }
    (compose (ctx.chain ++ middleware) handler), tables)

def routes_mount (ctx : Context H M) (name : Bytes) (middleware : List M) (parsed : Parsed) :
    Except Bytes (Node H × Tables) → Except Bytes (Mount H × Tables)
  | .error why => .error why
  | .ok (sub, tables) =>
    .ok (.router ( full_prefix ctx parsed.segments)
      { root := sub, policy := ctx.policy
        miss := compose (inner_context ctx parsed.segments name middleware).chain ctx.terminal
        mount_path := full_prefix ctx parsed.segments }, tables)

mutual

def add (ctx : Context H M) : Route H M → Node H → Tables → Except Bytes (Node H × Tables)
  | .leaf methods pattern name handler middleware, root, tables =>
    add_leaf compose ctx methods pattern name handler middleware root tables
  | .fallback pattern name middleware handler, root, tables =>
    add_mount ctx pattern name (handler_mount compose ctx name middleware handler tables) root
  | .mount pattern name middleware routes, root, tables =>
    add_mount ctx pattern name (fun parsed =>
      routes_mount compose ctx name middleware parsed
        (compile (inner_context ctx parsed.segments name middleware) routes (new_node H) tables)) root

/-- Adds each of `routes` to the trie. -/
def compile (ctx : Context H M) : List (Route H M) → Node H → Tables → Except Bytes (Node H × Tables)
  | [], root, tables => .ok (root, tables)
  | route :: routes, root, tables =>
    match add ctx route root tables with
    | .error why => .error why
    | .ok (root, tables) => compile ctx routes root tables

end

/-- A router of an app: its levels, and the tables they share. -/
structure Built (H : Type) where
  router : Router H
  tables : Tables

/-- What the top level is compiled with. -/
def top_context (terminal : H) (policy : Option TrailingSlash) (served : Option Bool) : Context H M :=
  { policy := policy.getD .redirect, terminal, chain := [], at_prefix := [], keep_prefix := served != some false
    name_prefix := [] }

/-- Compiles `routes` into a router. -/
def build (routes : List (Route H M)) (terminal : H) (policy : Option TrailingSlash) (served : Option Bool) :
    Except Bytes (Built H) :=
  let ctx : Context H M := top_context terminal policy served
  match compile compose ctx routes (new_node H) { names := [], verbs := [] } with
  | .error why => .error why
  | .ok (root, tables) => .ok { router := { root, policy := ctx.policy, miss := terminal, mount_path := [] }, tables }

end

/-! ## Looking up -/

section

variable {H : Type}

/-- What a walk of the trie comes to: the routes at a node with the values captured on the way and, for `*name`, where
the rest of the path begins; or a mount, and where the path goes on below it. -/
inductive Hit (H : Type) where
  | methods (methods : Methods H) (values : List Bytes) (rest_from : ℕ)
  | mount (mount : Mount H) (start : ℕ)

/-- Whether `methods` answers `method`. -/
def answers (methods : Methods H) (method : Bytes) : Bool :=
  (methods.by_method.lookup method).isSome || (method == lit "HEAD" && (methods.by_method.lookup (lit "GET")).isSome)

/-- The hit at `methods`, if it answers the method; the first node that does not is kept. -/
def settle (method : Bytes) (methods : Methods H) (values : List Bytes) (rest_from : ℕ) (other : Option (Hit H)) :
    Option (Hit H) × Option (Hit H) :=
  if answers methods method then (some (.methods methods values rest_from), other)
  else (none, if other.isNone then some (.methods methods [] rest_from) else other)

/-- The same, where there may be no routes. -/
def settle_at (method : Bytes) (held : Option (Methods H)) (values : List Bytes) (rest_from : ℕ) (other : Option (Hit H)) :
    Option (Hit H) × Option (Hit H) :=
  match held with
  | some methods => settle method methods values rest_from other
  | none => (none, other)

/-- Goes on to `next` where there is no hit yet. -/
def or_else (result : Option (Hit H) × Option (Hit H)) (next : Option (Hit H) → Option (Hit H) × Option (Hit H)) :
    Option (Hit H) × Option (Hit H) :=
  match result with
  | (some hit, other) => (some hit, other)
  | (none, other) => next other

/-- Walks the segments from the `i`th on: the hit, and the most specific node so far that answers other methods. -/
def walk (method : Bytes) : List Bytes → ℕ → Node H → List Bytes → Option (Hit H) → Option (Hit H) × Option (Hit H)
  | rest, i, node, values, other =>
    match node.value.mount with
    | some mount => (some (.mount mount i), other)
    | none =>
      match rest with
      | [] =>
        or_else (settle_at method node.value.exact values 0 other) fun other =>
          settle_at method node.value.wild values i other
      | segment :: rest =>
        or_else ((node.child (.literal segment)).elim (none, other) fun child =>
          walk method rest (i + 1) child values other) fun other =>
        or_else ((node.child .any).elim (none, other) fun child =>
          walk method rest (i + 1) child (values ++ [segment]) other) fun other =>
        settle_at method node.value.wild values i other

/-- What the router decided for a request. -/
inductive Outcome (H : Type) where
  | matched (route : RouteInfo) (params : List (Bytes × Bytes)) (handler : H) (mount_path : Bytes)
  | not_found (handler : H) (mount_path : Bytes)
  | not_allowed (allow : Bytes) (handler : H) (mount_path : Bytes)
  | options (allow : Bytes) (handler : H) (mount_path : Bytes)
  | redirect (location : Bytes) (handler : H) (mount_path : Bytes)
  | bad_path (detail : Bytes) (handler : H) (mount_path : Bytes)

/-- The `Allow` header for routes of `verbs`. -/
def allow_of (verbs : List Bytes) : Bytes :=
  let head := if verbs.contains (lit "GET") && !verbs.contains (lit "HEAD") then [lit "HEAD"] else []
  let options := if verbs.contains (lit "OPTIONS") then [] else [lit "OPTIONS"]
  concat (lit ", ") ((verbs ++ head ++ options).insertionSort (· ≤ ·))

/-- The parameters of a route: a value for each name, and the rest of the path for the one that has none. -/
def params_of (segments : List Bytes) (rest_from : ℕ) : List Bytes → List Bytes → List (Bytes × Bytes)
  | [], _ => []
  | name :: names, value :: values => (name, value) :: params_of segments rest_from names values
  | name :: names, [] => (name, concat (lit "/") (segments.drop (rest_from - 1))) :: params_of segments rest_from names []

/-- The terminal that answers `method`: its own, or for `HEAD` that of `GET`. -/
def terminal_for (methods : Methods H) (method : Bytes) : Option (Terminal H) :=
  match methods.by_method.lookup method with
  | some terminal => some terminal
  | none => if method = lit "HEAD" then methods.by_method.lookup (lit "GET") else none

/-- The outcome at a node the walk came to. -/
def outcome_at (router : Router H) (method : Bytes) (segments : List Bytes) (trailing : Bool)
    (methods : Methods H) (values : List Bytes) (rest_from : ℕ) : Outcome H :=
  match terminal_for methods method with
  | none =>
    let allow := allow_of methods.by_method.keys
    if method = lit "OPTIONS" then .options allow router.miss router.mount_path
    else .not_allowed allow router.miss router.mount_path
  | some terminal =>
    if rest_from = 0 ∧ terminal.slash ≠ trailing then
      if router.policy = .strict then .not_found router.miss router.mount_path
      else .redirect (path_of segments terminal.slash) router.miss router.mount_path
    else .matched terminal.info (params_of segments rest_from terminal.names values) terminal.handler router.mount_path

/-- Looks the segments from the `start`th on up in `router`; `none` where mounts are nested deeper than `fuel`. -/
def lookup : ℕ → Router H → Bytes → List Bytes → Bool → ℕ → Option (Outcome H)
  | 0, _, _, _, _, _ => none
  | fuel + 1, router, method, segments, trailing, start =>
    let (hit, other) := walk method (segments.drop (start - 1)) start router.root [] none
    match hit.or other with
    | none => some (.not_found router.miss router.mount_path)
    | some (.mount (.handler at_prefix info handler) _) => some (.matched info [] handler at_prefix)
    | some (.mount (.router _ sub) start) => lookup fuel sub method segments trailing start
    | some (.methods methods values rest_from) =>
      some (outcome_at router method segments trailing methods values rest_from)

/-- The answer to a request for `*`. -/
def star (built : Built H) (method : Bytes) : Outcome H :=
  if method = lit "OPTIONS" then .options (allow_of built.tables.verbs) built.router.miss []
  else .bad_path (lit "the target '*' is for OPTIONS alone") built.router.miss []

/-- What an app would do with a request of `method` for `path`. -/
def matched (fuel : ℕ) (built : Built H) (method path : Bytes) : Option (Outcome H) :=
  if path = lit "*" then some (star built method)
  else
    match canonical path with
    | .error why => some (.bad_path why built.router.miss [])
    | .ok canon =>
      if canon.changed then some (.redirect canon.path built.router.miss [])
      else lookup fuel built.router method canon.segments canon.trailing 1

end

end Cosmic.Web

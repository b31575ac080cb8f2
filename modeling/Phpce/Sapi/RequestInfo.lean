import Phpce.Fcgi.Env

/-!
# `init_request_info`

The routine of `sapi/fpm/fpm/fpm_main.c` that fills `SG(request_info)` from the environment of the
request and, with `cgi.fix_pathinfo`, looks for the script through the path it was given. It edits
the environment as it goes, some of its strings in place.

* **`initRequestInfo_sapiHeaders`** — of `SG(sapi_headers)` it assigns the response code only:
  404 where the path names no file and no cut of it does, 200 elsewhere.
-/

namespace Phpce

namespace Sapi

open Bytes Fcgi Option

def slash : UInt8 := 47

def backslash : UInt8 := 92

/-- What the routine reads of the configuration and of the file system while it runs. -/
structure Host where
  -- `CGIG(fix_pathinfo)`
  fixPathinfo : Bool
  -- `CGIG(discard_path)`
  discardPath : Bool
  -- `PG(doc_root)`
  docRoot : Option Bytes
  -- `tsrm_realpath` finds the path
  realpath : Bytes → Bool
  -- `stat` finds a regular file
  isRegular : Bytes → Bool
  -- `php_base64_decode`
  base64Decode : Bytes → Option Bytes

/-- The fields of `SG(request_info)` that the routine assigns. -/
structure RequestInfo where
  pathTranslated : Option Bytes
  requestMethod : Option Bytes
  protoNum : Nat
  queryString : Option Bytes
  requestUri : Option Bytes
  contentType : Option Bytes
  contentLength : Int
  authUser : Option Bytes
  authPassword : Option Bytes
  authDigest : Option Bytes
  deriving DecidableEq, Repr

/-- `SG(sapi_headers)`. -/
structure SapiHeaders where
  headers : List Bytes
  httpResponseCode : Int
  httpStatusLine : Option Bytes
  deriving DecidableEq, Repr

inductive IniStage where
  | user
  | system
  deriving DecidableEq, Repr

/-- The globals of one thread: the environment of `SG(server_context)`, `SG(request_info)`,
`SG(sapi_headers)`, and the settings given to `zend_parse_ini_string`. -/
structure SapiGlobals where
  env : Env
  requestInfo : RequestInfo
  sapiHeaders : SapiHeaders
  ini : List (IniStage × Bytes)
  deriving DecidableEq, Repr

/-! ## Small C functions -/

def longMax : Nat := 9223372036854775807

/-- `atol`: blanks, a sign, digits; the value saturates as that of `strtol` does. -/
def atol (s : Bytes) : Int :=
  let digits (t : Bytes) : Nat :=
    (t.takeWhile fun b => 48 ≤ b && b ≤ 57).foldl (fun n b => n * 10 + (b.toNat - 48)) 0
  let clamp (n bound : Nat) : Nat := if bound < n then bound else n
  match s.dropWhile fun b => b = 32 || 9 ≤ b && b ≤ 13 with
  | 45 :: t => -(Int.ofNat (clamp (digits t) (longMax + 1)))
  | 43 :: t => Int.ofNat (clamp (digits t) longMax)
  | t => Int.ofNat (clamp (digits t) longMax)

/-- The path segment `..` starts here. -/
def startsDotDot : Bytes → Bool
  | 46 :: 46 :: rest => rest.head?.all (· = slash)
  | _ => false

/-- One of the segments is `..`; the flag says that a segment starts here. -/
def hasDotDot : Bool → Bytes → Bool
  | _, [] => false
  | atStart, b :: rest => atStart && startsDotDot (b :: rest) || hasDotDot (b = slash) rest

def isValidPath : Option Bytes → Bool
  | none => false
  | some path => !hasDotDot true path

def phpHandleAuthData (base64Decode : Bytes → Option Bytes) (auth : Option Bytes)
    (info : RequestInfo) : RequestInfo :=
  let cleared := { info with authUser := none, authPassword := none, authDigest := none }
  match auth with
  | none => cleared
  | some auth =>
    if (ascii "Basic ").isPrefixOf auth then
      match base64Decode (auth.drop 6) with
      | some user =>
        let user := cstr user
        if 58 ∈ user then
          { info with
            authUser := some (user.takeWhile (· ≠ 58))
            authPassword := some ((user.dropWhile (· ≠ 58)).drop 1)
            authDigest := none }
        else cleared
      | none => cleared
    else if (ascii "Digest ").isPrefixOf auth then
      { cleared with authDigest := some (auth.drop 7) }
    else cleared

/-! ## The script's path -/

/-- The proxy fix: the URL in a buffer that starts with `pre` is replaced in place by its path, and
cut at its query string. The flag is `apache_was_here`. -/
def fixProxyUrl (pre buf : Bytes) : Bytes × Bool :=
  let s := cstr buf
  if (s.take pre.length).map toLower = pre then
    -- past the hostname and port
    let p := (s.drop pre.length).dropWhile (· ≠ slash)
    let buf := if p = [] then buf else p ++ 0 :: buf.drop (p.length + 1)
    let buf := if 63 ∈ cstr buf then buf.set ((cstr buf).idxOf 63) 0 else buf
    (buf, !p.isEmpty)
  else (buf, false)

def fixProxyUrls (buf : Bytes) : Bytes × Bool :=
  let (buf, proxied) := fixProxyUrl (ascii "proxy:fcgi://") buf
  let (buf, balanced) := fixProxyUrl (ascii "proxy:balancer://") buf
  (buf, proxied || balanced)

/-- The locals of the routine, and what it has assigned in `SG`. -/
structure Locals where
  env : Env
  scriptPathTranslated : Option Bytes
  envScriptFilename : Option Bytes
  envPathTranslated : Option Bytes
  envPathInfo : Option Bytes
  envScriptName : Option Bytes
  apacheWasHere : Bool
  requestUri : Option Bytes
  httpResponseCode : Int
  deriving DecidableEq, Repr

namespace Locals

def putenv (l : Locals) (name : String) (val : Option Bytes) : Locals :=
  { l with env := fcgiPutenv l.env name val }

def putOrig (l : Locals) (name : String) : Option Bytes → Locals
  | none => l
  | some orig => l.putenv name (some orig)

end Locals

/-- The pointers taken from the environment, and the hack for a buggy IIS. -/
def readLocals (env : Env) : Locals :=
  let l : Locals :=
    { env := env
      scriptPathTranslated :=
        (fcgiGetenv env "SCRIPT_FILENAME").or (fcgiGetenv env "PATH_TRANSLATED")
      envScriptFilename := fcgiGetenv env "SCRIPT_FILENAME"
      envPathTranslated := fcgiGetenv env "PATH_TRANSLATED"
      envPathInfo := fcgiGetenv env "PATH_INFO"
      envScriptName := fcgiGetenv env "SCRIPT_NAME"
      apacheWasHere := false
      requestUri := none
      httpResponseCode := 200 }
  match fcgiGetenv env "SERVER_SOFTWARE", l.envScriptName, l.envPathInfo with
  | some software, some scriptName, some pathInfo =>
    if (ascii "Microsoft-IIS").isPrefixOf software && scriptName.isPrefixOf pathInfo then
      let rest := pathInfo.drop scriptName.length
      let pathInfo' := if rest = [] then none else some rest
      { (l.putenv "ORIG_PATH_INFO" (some pathInfo)).putenv "PATH_INFO" pathInfo' with
        envPathInfo := pathInfo' }
    else l
  | _, _, _ => l

/-- The proxy fixes of `env_script_filename`. Where that is set, `script_path_translated` points to
the same buffer. -/
def fixScriptFilename (l : Locals) : Locals :=
  match fcgiGetenvBuf l.env "SCRIPT_FILENAME" with
  | none => l
  | some buf =>
    let (buf, apache) := fixProxyUrls buf
    { l with
      env := fcgiPokeenv l.env "SCRIPT_FILENAME" buf
      scriptPathTranslated := some (cstr buf)
      envScriptFilename := some (cstr buf)
      apacheWasHere := apache }

/-! ## `cgi.fix_pathinfo`

`o` is the state of the locals on entry: `orig_path_info`, `orig_script_name` and so on. -/

/-- `ORIG_PATH_INFO`, `ORIG_SCRIPT_NAME` and `SCRIPT_NAME`, with `shown` in `env_path_info`. -/
def renameScript (l o : Locals) (shown : Bytes) : Locals :=
  let l := l.putOrig "ORIG_PATH_INFO" o.envPathInfo
  if o.envScriptName ≠ some shown then
    { (l.putOrig "ORIG_SCRIPT_NAME" o.envScriptName).putenv "SCRIPT_NAME" (some shown) with
      requestUri := some shown }
  else { l with requestUri := o.envScriptName }

def setPathInfo (l : Locals) (pathInfo : Bytes) : Locals :=
  { l.putenv "PATH_INFO" (some pathInfo) with envPathInfo := some pathInfo }

/-- The part behind the script goes from the end of `SCRIPT_NAME`. -/
def shortenScriptName (l o : Locals) (name : Bytes) : Locals :=
  { (l.putOrig "ORIG_SCRIPT_NAME" o.envScriptName).putenv "SCRIPT_NAME" (some name) with
    envScriptName := some name
    requestUri := some name }

/-- The part of the path behind the script found, `slen` bytes of it, becomes `PATH_INFO`. Without
`apache_was_here` it is taken from the end of `PATH_INFO`; where that is too short, the routine
writes in front of the string, and the model has no result. -/
def splitPathInfo (l o : Locals) (path pt : Bytes) : Option Locals :=
  let slen := path.length - pt.length
  if l.apacheWasHere then
    let pathInfo := path.drop pt.length
    if slen ≠ 0 ∧ o.envPathInfo ≠ some pathInfo then
      match o.envPathInfo, l.envScriptName with
      | some shown, _ => some (setPathInfo (renameScript l o shown) pathInfo)
      | none, some name =>
        if slen < name.length ∧ name.drop (name.length - slen) = pathInfo then
          let name' := name.take (name.length - slen)
          some (setPathInfo (shortenScriptName l o name') pathInfo)
        else some (setPathInfo l pathInfo)
      | none, none => some (setPathInfo l pathInfo)
    else some l
  else
    match l.envPathInfo with
    | none => some l
    | some pathInfo =>
      if pathInfo.length < slen then none
      else if pathInfo.length ≠ slen then
        let cut := pathInfo.length - slen
        some (setPathInfo (renameScript l o (pathInfo.take cut)) (pathInfo.drop cut))
      else some l

/-- `SCRIPT_FILENAME` becomes the script found. -/
def setScriptFilename (l o : Locals) (pt : Bytes) : Locals :=
  if o.envScriptFilename ≠ some pt then
    { (l.putOrig "ORIG_SCRIPT_FILENAME" o.envScriptFilename).putenv "SCRIPT_FILENAME" (some pt) with
      scriptPathTranslated := some pt }
  else l

/-- `PATH_TRANSLATED` becomes the document root, or what is taken for it, and `PATH_INFO`. -/
def setPathTranslated (l o : Locals) (envDocumentRoot : Option Bytes) (pt : Bytes) : Locals :=
  let assign := fun root : Bytes =>
    let path := root ++ l.envPathInfo.getD []
    { (l.putOrig "ORIG_PATH_TRANSLATED" o.envPathTranslated).putenv "PATH_TRANSLATED"
        (some path) with envPathTranslated := some path }
  match envDocumentRoot, l.envScriptName with
  | some root, _ => assign (if root.getLast? = some slash then root.dropLast else root)
  | none, some name =>
    if hasSubstring name pt then assign (pt.take (pt.length - name.length)) else l
  | none, none => l

/-- Every `/` was stripped and no script found: "no input file". -/
def noScript (l o : Locals) : Locals :=
  { (l.putOrig "ORIG_SCRIPT_FILENAME" o.envScriptFilename).putenv "SCRIPT_FILENAME" none with
    scriptPathTranslated := none
    httpResponseCode := 404 }

def defaultRequestUri (l o : Locals) : Locals :=
  if l.requestUri.isSome then l
  else if o.envScriptName = none ∨ o.envScriptName ≠ l.envScriptName then
    { (l.putOrig "ORIG_SCRIPT_NAME" o.envScriptName).putenv "SCRIPT_NAME" l.envScriptName with
      requestUri := l.envScriptName }
  else { l with requestUri := o.envScriptName }

/-- The script is looked for by stat'ing back through the `/` of the path. -/
def searchScript (host : Host) (l o : Locals) (envDocumentRoot : Option Bytes) (path : Bytes) :
    Option Locals :=
  match findCut slash backslash host.isRegular (path.length + 1) path with
  | some pt =>
    (splitPathInfo l o path pt).map fun l =>
      defaultRequestUri (setPathTranslated (setScriptFilename l o pt) o envDocumentRoot pt) o
  | none => some (defaultRequestUri (noScript l o) o)

/-- `if (orig)` its value moves to the variable `origName`. -/
def moveToOrig (l : Locals) (name origName : String) : Option Bytes → Locals
  | none => l
  | some orig => (l.putenv origName (some orig)).putenv name none

def rememberScriptFilename (l o : Locals) : Locals :=
  if o.envScriptFilename ≠ l.scriptPathTranslated then
    (l.putOrig "ORIG_SCRIPT_FILENAME" o.envScriptFilename).putenv "SCRIPT_FILENAME"
      l.scriptPathTranslated
  else l

/-- The path exists: originals that were changed are remembered in `ORIG_` copies. -/
def rememberOriginals (l o : Locals) (envRedirectUrl : Option Bytes) (redirected : Bool) :
    Locals :=
  let l := rememberScriptFilename l o
  let l :=
    if !l.apacheWasHere && envRedirectUrl.isSome then
      moveToOrig (moveToOrig l "PATH_INFO" "ORIG_PATH_INFO" o.envPathInfo) "PATH_TRANSLATED"
        "ORIG_PATH_TRANSLATED" o.envPathTranslated
    else l
  if redirected then
    { (l.putOrig "ORIG_SCRIPT_NAME" o.envScriptName).putenv "SCRIPT_NAME" l.envScriptName with
      requestUri := l.envScriptName }
  else { l with requestUri := l.envScriptName }

/-- The redirect of Apache: the script is in `PATH_TRANSLATED`. -/
def isRedirected (l : Locals) (envRedirectUrl : Option Bytes) : Bool :=
  !l.apacheWasHere && l.envPathTranslated.isSome && envRedirectUrl.isSome &&
    l.envPathTranslated != l.scriptPathTranslated

def followRedirect (l : Locals) (envRedirectUrl : Option Bytes) : Locals :=
  if isRedirected l envRedirectUrl then
    { l with scriptPathTranslated := l.envPathTranslated, envScriptName := envRedirectUrl }
  else l

/-- `env_document_root`, which is set from the configuration where it is missing. -/
def fixDocumentRoot (host : Host) (l : Locals) : Locals × Option Bytes :=
  match fcgiGetenv l.env "DOCUMENT_ROOT", host.docRoot with
  | some root, _ => (l, some root)
  | none, some root => (l.putenv "DOCUMENT_ROOT" (some root), some root)
  | none, none => (l, none)

def fixPathinfo (host : Host) (o : Locals) : Option Locals :=
  let envRedirectUrl := fcgiGetenv o.env "REDIRECT_URL"
  let (l, envDocumentRoot) := fixDocumentRoot host o
  let redirected := isRedirected l envRedirectUrl
  let l := followRedirect l envRedirectUrl
  match l.scriptPathTranslated with
  | some path =>
    if path ≠ [] ∧ (path.getLast? = some slash ∨ host.realpath path = false) then
      searchScript host l o envDocumentRoot path
    else some (rememberOriginals l o envRedirectUrl redirected)
  | none => some (rememberOriginals l o envRedirectUrl redirected)

def oldPathinfo (host : Host) (l : Locals) : Locals :=
  { l with
    requestUri := if l.envPathInfo.isSome then l.envPathInfo else l.envScriptName
    scriptPathTranslated :=
      if !host.discardPath && l.envPathTranslated.isSome then l.envPathTranslated
      else l.scriptPathTranslated }

/-- The block `if (script_path_translated)` up to `is_valid_path`. -/
def translatePath (host : Host) (env : Env) : Option Locals :=
  let l := fixScriptFilename (readLocals env)
  if host.fixPathinfo then fixPathinfo host l else some (oldPathinfo host l)

/-! ## The whole routine -/

/-- `fastcgi_ini_parser` gets the value of one variable. -/
def parseIni (env : Env) (name : String) (stage : IniStage) : List (IniStage × Bytes) :=
  match fcgiGetenv env name with
  | some ini => [(stage, ini ++ [10])]
  | none => []

/-- **`init_request_info`**. -/
def initRequestInfo (host : Host) (sg : SapiGlobals) : Option SapiGlobals :=
  let info : RequestInfo :=
    { sg.requestInfo with
      pathTranslated := none
      requestMethod := none
      protoNum := 1000
      queryString := none
      requestUri := none
      contentType := none
      contentLength := 0 }
  let headers := { sg.sapiHeaders with httpResponseCode := 200 }
  let parse := fun sg : SapiGlobals =>
    { sg with ini := sg.ini ++ parseIni sg.env "PHP_VALUE" .user ++
        parseIni sg.env "PHP_ADMIN_VALUE" .system }
  match (fcgiGetenv sg.env "SCRIPT_FILENAME").or (fcgiGetenv sg.env "PATH_TRANSLATED") with
  | none => some (parse { sg with requestInfo := info, sapiHeaders := headers })
  | some _ =>
    (translatePath host sg.env).map fun l =>
      let path := l.scriptPathTranslated
      parse
        { sg with
          env := l.env
          requestInfo := phpHandleAuthData host.base64Decode (fcgiGetenv l.env "HTTP_AUTHORIZATION")
            { info with
              pathTranslated := if isValidPath path then path else none
              requestMethod := fcgiGetenv l.env "REQUEST_METHOD"
              queryString := fcgiGetenv l.env "QUERY_STRING"
              requestUri := l.requestUri
              contentType := some ((fcgiGetenv sg.env "CONTENT_TYPE").getD [])
              contentLength := ((fcgiGetenv sg.env "CONTENT_LENGTH").map atol).getD 0 }
          sapiHeaders := { headers with httpResponseCode := l.httpResponseCode } }

/-! ## The response code -/

/-- The path that the locals ask for: that of the script, or `PATH_TRANSLATED` where Apache has
redirected. -/
def Locals.requested (l : Locals) : Option Bytes :=
  if isRedirected l (fcgiGetenv l.env "REDIRECT_URL") then l.envPathTranslated
  else l.scriptPathTranslated

/-- The path that the routine looks for: `SCRIPT_FILENAME` after the proxy fixes, or
`PATH_TRANSLATED` where that is missing or Apache has redirected. -/
def requestedPath (env : Env) : Option Bytes := (fixScriptFilename (readLocals env)).requested

/-- The path ends in a slash or does not exist, and none of the paths it can be cut back to is a
regular file. -/
def Missing (host : Host) (path : Bytes) : Prop :=
  path ≠ [] ∧ (path.getLast? = some slash ∨ host.realpath path = false) ∧
    ∀ p, Cut slash backslash path p → host.isRegular p = false

/-- **No input file**: `cgi.fix_pathinfo` is on, and the path that the request names is missing. -/
def NoInputFile (host : Host) (env : Env) : Prop :=
  host.fixPathinfo = true ∧ ∃ path, requestedPath env = some path ∧ Missing host path

section Keeps

def Keeps (l l' : Locals) : Prop :=
  l'.httpResponseCode = l.httpResponseCode ∧
    fcgiGetenv l'.env "REQUEST_METHOD" = fcgiGetenv l.env "REQUEST_METHOD"

variable {l l' l'' : Locals} (o : Locals)

theorem Keeps.trans (h : Keeps l l') (h' : Keeps l' l'') : Keeps l l'' :=
  ⟨h'.1.trans h.1, h'.2.trans h.2⟩

theorem keeps_putenv (l : Locals) {name : String} (hne : ascii name ≠ ascii "REQUEST_METHOD")
    (val : Option Bytes) : Keeps l (l.putenv name val) :=
  ⟨rfl, fcgiGetenv_fcgiPutenv_ne hne l.env val⟩

theorem keeps_putOrig (l : Locals) (name : String) (hne : ascii name ≠ ascii "REQUEST_METHOD")
    (orig : Option Bytes) : Keeps l (l.putOrig name orig) := by
  cases orig with
  | none => exact ⟨rfl, rfl⟩
  | some orig => exact keeps_putenv l hne (some orig)

theorem keeps_putOrig_putenv (l : Locals) (name origName : String)
    (hne : ascii name ≠ ascii "REQUEST_METHOD") (hne' : ascii origName ≠ ascii "REQUEST_METHOD")
    (orig val : Option Bytes) : Keeps l ((l.putOrig origName orig).putenv name val) :=
  (keeps_putOrig l origName hne' orig).trans (keeps_putenv _ hne val)

theorem keeps_setPathInfo (l : Locals) (pathInfo : Bytes) : Keeps l (setPathInfo l pathInfo) :=
  keeps_putenv l (by decide) (some pathInfo)

theorem keeps_renameScript (l : Locals) (shown : Bytes) : Keeps l (renameScript l o shown) := by
  have horig := keeps_putOrig l "ORIG_PATH_INFO" (by decide) o.envPathInfo
  have hname := keeps_putOrig_putenv (l.putOrig "ORIG_PATH_INFO" o.envPathInfo) "SCRIPT_NAME"
    "ORIG_SCRIPT_NAME" (by decide) (by decide) o.envScriptName (some shown)
  unfold renameScript
  dsimp only
  split
  · exact horig.trans hname
  · exact horig

theorem keeps_shortenScriptName (l : Locals) (name : Bytes) :
    Keeps l (shortenScriptName l o name) :=
  keeps_putOrig_putenv l "SCRIPT_NAME" "ORIG_SCRIPT_NAME" (by decide) (by decide) o.envScriptName
    (some name)

theorem keeps_splitPathInfo {path pt : Bytes} (h : splitPathInfo l o path pt = some l') :
    Keeps l l' := by
  simp only [splitPathInfo] at h
  split at h
  · split at h
    · split at h
      · obtain rfl := some.inj h
        exact (keeps_renameScript o l _).trans (keeps_setPathInfo _ _)
      · split at h
        · obtain rfl := some.inj h
          exact (keeps_shortenScriptName o l _).trans (keeps_setPathInfo _ _)
        · obtain rfl := some.inj h
          exact keeps_setPathInfo l _
      · obtain rfl := some.inj h
        exact keeps_setPathInfo l _
    · obtain rfl := some.inj h
      exact ⟨rfl, rfl⟩
  · split at h
    · obtain rfl := some.inj h
      exact ⟨rfl, rfl⟩
    · split at h
      · cases h
      · split at h
        · obtain rfl := some.inj h
          exact (keeps_renameScript o l _).trans (keeps_setPathInfo _ _)
        · obtain rfl := some.inj h
          exact ⟨rfl, rfl⟩

theorem keeps_setScriptFilename (l : Locals) (pt : Bytes) :
    Keeps l (setScriptFilename l o pt) := by
  unfold setScriptFilename
  split
  · exact keeps_putOrig_putenv l "SCRIPT_FILENAME" "ORIG_SCRIPT_FILENAME" (by decide) (by decide)
      o.envScriptFilename (some pt)
  · exact ⟨rfl, rfl⟩

theorem keeps_setPathTranslated (l : Locals) (envDocumentRoot : Option Bytes) (pt : Bytes) :
    Keeps l (setPathTranslated l o envDocumentRoot pt) := by
  have hassign := fun path : Bytes => keeps_putOrig_putenv l "PATH_TRANSLATED"
    "ORIG_PATH_TRANSLATED" (by decide) (by decide) o.envPathTranslated (some path)
  unfold setPathTranslated
  dsimp only
  split
  · exact hassign _
  · split
    · exact hassign _
    · exact ⟨rfl, rfl⟩
  · exact ⟨rfl, rfl⟩

theorem keeps_defaultRequestUri (l : Locals) : Keeps l (defaultRequestUri l o) := by
  unfold defaultRequestUri
  split
  · exact ⟨rfl, rfl⟩
  · split
    · exact keeps_putOrig_putenv l "SCRIPT_NAME" "ORIG_SCRIPT_NAME" (by decide) (by decide)
        o.envScriptName l.envScriptName
    · exact ⟨rfl, rfl⟩

theorem keeps_moveToOrig (l : Locals) (name origName : String)
    (hne : ascii name ≠ ascii "REQUEST_METHOD") (hne' : ascii origName ≠ ascii "REQUEST_METHOD")
    (orig : Option Bytes) : Keeps l (moveToOrig l name origName orig) := by
  cases orig with
  | none => exact ⟨rfl, rfl⟩
  | some orig => exact keeps_putOrig_putenv l name origName hne hne' (some orig) none

theorem keeps_rememberScriptFilename (l : Locals) : Keeps l (rememberScriptFilename l o) := by
  unfold rememberScriptFilename
  split
  · exact keeps_putOrig_putenv l "SCRIPT_FILENAME" "ORIG_SCRIPT_FILENAME" (by decide) (by decide)
      o.envScriptFilename _
  · exact ⟨rfl, rfl⟩

theorem keeps_rememberOriginals (l : Locals) (envRedirectUrl : Option Bytes) (redirected : Bool) :
    Keeps l (rememberOriginals l o envRedirectUrl redirected) := by
  have hname := fun l : Locals => keeps_putOrig_putenv l "SCRIPT_NAME" "ORIG_SCRIPT_NAME"
    (by decide) (by decide) o.envScriptName l.envScriptName
  have hmoved : Keeps l (moveToOrig (moveToOrig (rememberScriptFilename l o) "PATH_INFO"
      "ORIG_PATH_INFO" o.envPathInfo) "PATH_TRANSLATED" "ORIG_PATH_TRANSLATED"
      o.envPathTranslated) :=
    ((keeps_rememberScriptFilename o l).trans
      (keeps_moveToOrig _ _ _ (by decide) (by decide) o.envPathInfo)).trans
      (keeps_moveToOrig _ _ _ (by decide) (by decide) o.envPathTranslated)
  unfold rememberOriginals
  dsimp only
  split
  · split
    · exact hmoved.trans (hname _)
    · exact (keeps_rememberScriptFilename o l).trans (hname _)
  · split
    · exact hmoved
    · exact keeps_rememberScriptFilename o l

end Keeps

theorem readLocals_start (env : Env) :
    (fixScriptFilename (readLocals env)).httpResponseCode = 200 ∧
      fcgiGetenv (fixScriptFilename (readLocals env)).env "REQUEST_METHOD" =
        fcgiGetenv env "REQUEST_METHOD" := by
  have hread : (readLocals env).httpResponseCode = 200 ∧
      fcgiGetenv (readLocals env).env "REQUEST_METHOD" = fcgiGetenv env "REQUEST_METHOD" := by
    simp only [readLocals]
    split
    · split
      · refine ⟨rfl, ?_⟩
        simp only [Locals.putenv]
        rw [fcgiGetenv_fcgiPutenv_ne (by decide), fcgiGetenv_fcgiPutenv_ne (by decide)]
      · exact ⟨rfl, rfl⟩
    · exact ⟨rfl, rfl⟩
  unfold fixScriptFilename
  split
  · exact hread
  · refine ⟨hread.1, ?_⟩
    dsimp only
    rw [fcgiGetenv_fcgiPokeenv_ne (by decide), hread.2]

/-- The code that a routine leaves is 404 if `P` holds, and what it was if not; the method of the
request stays. -/
def Gives (P : Prop) (l l' : Locals) : Prop :=
  (P ∧ l'.httpResponseCode = 404 ∨ ¬P ∧ l'.httpResponseCode = l.httpResponseCode) ∧
    fcgiGetenv l'.env "REQUEST_METHOD" = fcgiGetenv l.env "REQUEST_METHOD"

theorem gives_of_keeps {P : Prop} {l l' : Locals} (hP : ¬P) (h : Keeps l l') : Gives P l l' :=
  ⟨.inr ⟨hP, h.1⟩, h.2⟩

theorem searchScript_gives {host : Host} {l o l' : Locals} {root : Option Bytes} {path : Bytes}
    (h : searchScript host l o root path = some l') :
    Gives (∀ p, Cut slash backslash path p → host.isRegular p = false) l l' := by
  unfold searchScript at h
  split at h
  · rename_i pt hfound
    obtain ⟨hregular, hcut⟩ := findCut_eq_some hfound
    obtain ⟨l₁, hsplit, rfl⟩ := map_eq_some_iff.mp h
    refine gives_of_keeps (fun hnone => ?_) ?_
    · rw [hnone pt hcut] at hregular
      cases hregular
    · exact ((keeps_splitPathInfo o hsplit).trans (keeps_setScriptFilename o l₁ pt)).trans
        ((keeps_setPathTranslated o _ root pt).trans (keeps_defaultRequestUri o _))
  · rename_i hnone
    obtain rfl := some.inj h
    have hdefault := keeps_defaultRequestUri o (noScript l o)
    have hdeleted := keeps_putOrig_putenv l "SCRIPT_FILENAME" "ORIG_SCRIPT_FILENAME" (by decide)
      (by decide) o.envScriptFilename none
    exact ⟨.inl ⟨(findCut_eq_none (Nat.lt_succ_self _)).mp hnone, hdefault.1⟩,
      hdefault.2.trans hdeleted.2⟩

theorem fixDocumentRoot_fst (host : Host) (l : Locals) :
    ∃ env, (fixDocumentRoot host l).1 = { l with env := env } ∧
      fcgiGetenv env "REQUEST_METHOD" = fcgiGetenv l.env "REQUEST_METHOD" := by
  unfold fixDocumentRoot
  split
  · exact ⟨l.env, rfl, rfl⟩
  · exact ⟨_, rfl, fcgiGetenv_fcgiPutenv_ne (by decide) l.env _⟩
  · exact ⟨l.env, rfl, rfl⟩

theorem followRedirect_fixDocumentRoot (host : Host) (o : Locals) :
    (followRedirect (fixDocumentRoot host o).1
        (fcgiGetenv o.env "REDIRECT_URL")).scriptPathTranslated = o.requested ∧
      Keeps o (followRedirect (fixDocumentRoot host o).1 (fcgiGetenv o.env "REDIRECT_URL")) := by
  obtain ⟨env, hroot, hmethod⟩ := fixDocumentRoot_fst host o
  have hredirected : isRedirected { o with env := env } (fcgiGetenv o.env "REDIRECT_URL") =
      isRedirected o (fcgiGetenv o.env "REDIRECT_URL") := rfl
  rw [hroot, followRedirect, Locals.requested, hredirected]
  split
  · exact ⟨rfl, rfl, hmethod⟩
  · exact ⟨rfl, rfl, hmethod⟩

theorem fixPathinfo_gives {host : Host} {o l' : Locals} (h : fixPathinfo host o = some l') :
    Gives (∃ path, o.requested = some path ∧ Missing host path) o l' := by
  obtain ⟨hpath, hkeeps⟩ := followRedirect_fixDocumentRoot host o
  simp only [fixPathinfo, hpath] at h
  cases hrequested : o.requested with
  | none =>
    rw [hrequested] at h
    obtain rfl := some.inj h
    refine gives_of_keeps ?_ (hkeeps.trans (keeps_rememberOriginals o _ _ _))
    rintro ⟨p, hp, -⟩
    cases hp
  | some path =>
    rw [hrequested] at h
    dsimp only at h
    split at h
    · rename_i hsearch
      obtain ⟨hempty, habsent⟩ := hsearch
      obtain ⟨hcode, hmethod⟩ := searchScript_gives h
      refine ⟨?_, hmethod.trans hkeeps.2⟩
      rcases hcode with ⟨hnone, h404⟩ | ⟨hfound, hkeep⟩
      · exact .inl ⟨⟨path, rfl, hempty, habsent, hnone⟩, h404⟩
      · refine .inr ⟨?_, hkeep.trans hkeeps.1⟩
        rintro ⟨p, hp, -, -, hnone⟩
        obtain rfl := some.inj hp
        exact hfound hnone
    · rename_i hexists
      obtain rfl := some.inj h
      refine gives_of_keeps ?_ (hkeeps.trans (keeps_rememberOriginals o _ _ _))
      rintro ⟨p, hp, hempty, habsent, -⟩
      obtain rfl := some.inj hp
      exact hexists ⟨hempty, habsent⟩

theorem translatePath_gives {host : Host} {env : Env} {l : Locals}
    (h : translatePath host env = some l) :
    (NoInputFile host env ∧ l.httpResponseCode = 404 ∨
        ¬NoInputFile host env ∧ l.httpResponseCode = 200) ∧
      fcgiGetenv l.env "REQUEST_METHOD" = fcgiGetenv env "REQUEST_METHOD" := by
  obtain ⟨hstart, hmethod⟩ := readLocals_start env
  unfold translatePath at h
  cases hfix : host.fixPathinfo with
  | true =>
    rw [hfix, if_pos rfl] at h
    obtain ⟨hcode, hkept⟩ := fixPathinfo_gives h
    refine ⟨?_, hkept.trans hmethod⟩
    rcases hcode with ⟨hmissing, h404⟩ | ⟨hfound, hkeep⟩
    · exact .inl ⟨⟨hfix, hmissing⟩, h404⟩
    · exact .inr ⟨fun hno => hfound hno.2, hkeep.trans hstart⟩
  | false =>
    rw [hfix, if_neg (by simp)] at h
    obtain rfl := some.inj h
    refine ⟨.inr ⟨fun hno => ?_, hstart⟩, hmethod⟩
    rw [hno.1] at hfix
    cases hfix

theorem readLocals_paths (env : Env) :
    (readLocals env).scriptPathTranslated =
        (fcgiGetenv env "SCRIPT_FILENAME").or (fcgiGetenv env "PATH_TRANSLATED") ∧
      (readLocals env).envPathTranslated = fcgiGetenv env "PATH_TRANSLATED" ∧
      fcgiGetenv (readLocals env).env "SCRIPT_FILENAME" = fcgiGetenv env "SCRIPT_FILENAME" := by
  simp only [readLocals]
  split
  · split
    · refine ⟨rfl, rfl, ?_⟩
      simp only [Locals.putenv]
      rw [fcgiGetenv_fcgiPutenv_ne (by decide), fcgiGetenv_fcgiPutenv_ne (by decide)]
    · exact ⟨rfl, rfl, rfl⟩
  · exact ⟨rfl, rfl, rfl⟩

theorem requestedPath_eq_none {env : Env}
    (h : (fcgiGetenv env "SCRIPT_FILENAME").or (fcgiGetenv env "PATH_TRANSLATED") = none) :
    requestedPath env = none := by
  obtain ⟨hpath, htranslated, hfilename⟩ := readLocals_paths env
  obtain ⟨hnoFilename, hnoTranslated⟩ := or_eq_none_iff.mp h
  rw [hnoFilename] at hfilename
  have hbuf : fcgiGetenvBuf (readLocals env).env "SCRIPT_FILENAME" = none :=
    map_eq_none_iff.mp hfilename
  have hfix : fixScriptFilename (readLocals env) = readLocals env := by
    rw [fixScriptFilename, hbuf]
  rw [requestedPath, hfix, Locals.requested, htranslated, hnoTranslated, hpath, h, ite_self]

/-- **What `init_request_info` does to `SG(sapi_headers)`**: the response code becomes 404 where
there is no input file, and 200 where there is one; the status line and the list of headers stay. -/
theorem initRequestInfo_sapiHeaders {host : Host} {sg sg' : SapiGlobals}
    (h : initRequestInfo host sg = some sg') :
    (NoInputFile host sg.env ∧ sg'.sapiHeaders = { sg.sapiHeaders with httpResponseCode := 404 }) ∨
      (¬NoInputFile host sg.env ∧
        sg'.sapiHeaders = { sg.sapiHeaders with httpResponseCode := 200 }) := by
  unfold initRequestInfo at h
  dsimp only at h
  split at h
  · rename_i hnone
    obtain rfl := some.inj h
    refine .inr ⟨?_, rfl⟩
    rintro ⟨-, path, hpath, -⟩
    rw [requestedPath_eq_none hnone] at hpath
    cases hpath
  · obtain ⟨l, hl, rfl⟩ := map_eq_some_iff.mp h
    rcases (translatePath_gives hl).1 with ⟨hno, hcode⟩ | ⟨hno, hcode⟩
    · exact .inl ⟨hno, by rw [hcode]⟩
    · exact .inr ⟨hno, by rw [hcode]⟩

/-! ## The method -/

def NamesScript (env : Env) : Prop :=
  ((fcgiGetenv env "SCRIPT_FILENAME").or (fcgiGetenv env "PATH_TRANSLATED")).isSome ∧
    (fcgiGetenv env "REQUEST_METHOD").isSome

instance (env : Env) : Decidable (NamesScript env) := inferInstanceAs (Decidable (_ ∧ _))

end Sapi

end Phpce

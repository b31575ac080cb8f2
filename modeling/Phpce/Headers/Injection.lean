import Phpce.Headers.Basic

/-!
# Header injection

No header of the list and no status line has a line break or a NUL in it, whatever the lines that a
script gives. The lengths that are stored beside the headers are right unless one is cut to 32
bits, as that of a `Content-Type` header with the default charset is.

* **`noInjection_iff`** — over every sequence of calls.
-/

namespace Phpce

namespace Headers

open Bytes List Option

variable {sg : SapiGlobals} {h h' : SapiHeaders} {call : HeaderCall} {e : HeaderStruct}
  {ev : HeaderEvent} {evs : List HeaderEvent} {links : Links Nat} {data : Nat → HeaderStruct}
  {code : Int}

/-- No header and no status line has a line break or a NUL, and the lengths are right. -/
structure NoInjection (h : SapiHeaders) : Prop where
  header : ∀ e ∈ h.headers.toList, LineClean e.header ∧ e.headerLen = e.header.length
  statusLine : ∀ line ∈ h.httpStatusLine, LineClean line

/-- A line that is rejected changes nothing. -/
def RejectedUnchanged (h : SapiHeaders) (ev : HeaderEvent) : Prop :=
  ∀ h' w, sapiHeaderOp ev.sg ev.call ev.alloc h = some (h', .failure w) → h' = h

def Configured (_ : SapiHeaders) (ev : HeaderEvent) : Prop :=
  Fresh ev.alloc ∧ LineClean ev.sg.defaultCharset

/-- The header that the call adds, if it adds one, is shorter than `2 ^ 32` bytes. -/
def ShortHeader (ev : HeaderEvent) : Prop :=
  ∀ e, addedHeader ev.sg ev.call = some e → e.header.length < 0x100000000

theorem rejectedUnchanged (h : SapiHeaders) (ev : HeaderEvent) : RejectedUnchanged h ev :=
  fun _ w hr => (sapiHeaderOp_done hr).rejected w rfl

theorem headerLen_addedHeader (hadded : addedHeader sg call = some e) :
    e.headerLen = e.header.length % 0x100000000 := by
  obtain ⟨op, p, -, -, hlt, rfl⟩ := addedHeader_eq_some hadded
  rcases storedHeader_cases sg (trim p.line) with heq | ⟨m, -, -, heq⟩
  · rw [heq]
    exact (Nat.mod_eq_of_lt hlt).symm
  · rw [heq]

theorem headerLen_eq_iff (hadded : addedHeader sg call = some e) :
    e.headerLen = e.header.length ↔ e.header.length < 0x100000000 := by
  rw [headerLen_addedHeader hadded, Nat.mod_eq_iff_lt (by decide)]

theorem step_statusLine (hstep : system.step h ev = some h')
    (hstatus : ∀ line ∈ h.httpStatusLine, LineClean line) :
    ∀ line ∈ h'.httpStatusLine, LineClean line := by
  obtain ⟨⟨h'', r⟩, hr, rfl⟩ := map_eq_some_iff.mp hstep
  rcases (sapiHeaderOp_done hr).statusLine with heq | hnone | ⟨op, p, -, hcheck, heq⟩
  · rw [heq]
    exact hstatus
  · rw [hnone]
    exact fun _ hmem => absurd hmem (not_mem_none _)
  · rw [heq]
    intro line hmem
    rw [← some.inj hmem]
    exact (lineCheck_eq_some_none.mp hcheck).1

theorem NoInjection.step (hsafe : NoInjection h) (hl : h.headers.WellFormed)
    (hconf : Configured h ev) (hshort : ShortHeader ev) (hstep : system.step h ev = some h') :
    NoInjection h' := by
  refine ⟨?_, step_statusLine hstep hsafe.statusLine⟩
  rw [(step_toList hconf.1 hl hstep).2]
  intro e he
  rcases mem_listAfter he with he | hadded
  · exact hsafe.header e he
  · refine ⟨?_, (headerLen_eq_iff hadded).mpr (hshort e hadded)⟩
    obtain ⟨op, p, -, hclean, -, rfl⟩ := addedHeader_eq_some hadded
    exact lineClean_storedHeader hclean hconf.2

theorem not_noInjection_step (hl : h.headers.WellFormed) (hconf : Configured h ev)
    (hlong : ¬ShortHeader ev) (hstep : system.step h ev = some h') : ¬NoInjection h' := by
  intro hsafe
  refine hlong fun e hadded => (headerLen_eq_iff hadded).mp ?_
  refine (hsafe.header e ?_).2
  rw [(step_toList hconf.1 hl hstep).2]
  exact addedHeader_mem_listAfter hadded

theorem noInjection_sapiActivate : NoInjection (sapiActivate links data code) where
  header e he := by
    have hnil : (sapiActivate links data code).headers.toList = [] := rfl
    rw [hnil] at he
    cases he
  statusLine _ hmem := absurd hmem (not_mem_none _)

/-- Over every sequence of calls no header and no status line gets a line break or a NUL, and a
rejected line changes nothing. The lengths are right as well, if and only if no header of `2 ^ 32`
bytes or more is added. -/
theorem noInjection_iff (hrun : system.Run Configured (sapiActivate links data code) evs h) :
    (system.Throughout NoInjection (sapiActivate links data code) evs ∧
      system.Along RejectedUnchanged (sapiActivate links data code) evs) ↔
    ∀ ev ∈ evs, ShortHeader ev := by
  have hrejected : system.Along RejectedUnchanged (sapiActivate links data code) evs :=
    EventSystem.Along.of_invariant (fun _ _ _ h _ => h)
      (fun s ev (_ : True) => rejectedUnchanged s ev) evs trivial
  rw [and_iff_left hrejected, ← hrun.along_iff]
  have hpres : ∀ (s : SapiHeaders) (ev : HeaderEvent) s', s.headers.WellFormed → Configured s ev →
      system.step s ev = some s' → s'.headers.WellFormed :=
    fun s ev s' hl hconf hstep => (step_toList hconf.1 hl hstep).1
  exact hrun.throughout_iff_along hpres
    (fun s ev s' hl hconf hsafe hshort hstep => hsafe.step hl hconf hshort hstep)
    (fun s ev s' hl hconf _ hlong hstep => not_noInjection_step hl hconf hlong hstep)
    wellFormed_sapiActivate noInjection_sapiActivate

theorem configured_onUnsent (h : SapiHeaders) (call : HeaderCall) :
    Configured h (onUnsent call) := by
  have hcharset : LineClean (ascii "UTF-8") := lineClean_of_all rfl
  exact ⟨fresh_nextAddress, hcharset⟩

theorem noInjection_iff_html :
    (system.Throughout NoInjection (sapiActivate ⟨fun _ => none, fun _ => none⟩ (fun _ => ⟨[], 0⟩)
        200) [onUnsent (.line .add ⟨ascii "Content-Type: text/html", 0⟩)] ∧
      system.Along RejectedUnchanged (sapiActivate ⟨fun _ => none, fun _ => none⟩
        (fun _ => ⟨[], 0⟩) 200) [onUnsent (.line .add ⟨ascii "Content-Type: text/html", 0⟩)]) ↔
    ∀ ev ∈ [onUnsent (.line .add ⟨ascii "Content-Type: text/html", 0⟩)], ShortHeader ev :=
  noInjection_iff (.cons (configured_onUnsent _ _) (some_get (by decide)).symm (.nil _))

/-- A type that starts with `text/` and goes on for `n` bytes. -/
def textType (n : Nat) : Bytes := ascii "Content-Type: text/" ++ List.replicate n 97

section TextType

variable {n : Nat}

theorem length_textType : (textType n).length = n + 19 := by
  rw [textType, length_append, length_replicate]
  exact Nat.add_comm ..

theorem lineClean_textType : LineClean (textType n) := by
  have hpre : LineClean (ascii "Content-Type: text/") := lineClean_of_all rfl
  refine hpre.append fun x hx => ?_
  rw [eq_of_mem_replicate hx]
  decide

theorem trim_textType (hn : n ≠ 0) : trim (textType n) = textType n := by
  obtain ⟨m, rfl⟩ := Nat.exists_eq_succ_of_ne_zero hn
  rw [textType, replicate_succ', ← append_assoc]
  exact rdropWhile_concat_neg isSpace _ 97 (by decide)

theorem mimetypeOf_textType : mimetypeOf (textType n) = ascii "text/" ++ List.replicate n 97 := rfl

theorem storedHeader_textType :
    storedHeader unsent (textType n) =
      ⟨ascii "Content-type: " ++ (ascii "text/" ++ List.replicate n 97 ++ ascii ";charset=" ++
        ascii "UTF-8"), (n + 33) % 0x100000000⟩ := by
  have hname : (nameOf (textType n)).map (List.map toLower) = some (ascii "content-type") := rfl
  have hsub : hasSubstring (ascii "charset=") (mimetypeOf (textType n)) = false := by
    refine Bool.eq_false_iff.mpr fun hsub => ?_
    have hmem := subset_of_hasSubstring hsub (show (104 : UInt8) ∈ ascii "charset=" by decide)
    rw [mimetypeOf_textType, mem_append] at hmem
    rcases hmem with hmem | hmem
    · exact absurd hmem (by decide)
    · exact absurd (eq_of_mem_replicate hmem) (by decide)
  have hcharset : sapiApplyDefaultCharset unsent.defaultCharset (mimetypeOf (textType n)) =
      some (ascii "text/" ++ List.replicate n 97 ++ ascii ";charset=" ++ ascii "UTF-8") :=
    if_pos ⟨by decide, rfl, hsub⟩
  rw [storedHeader, if_pos hname, contentType, hcharset]
  dsimp only
  congr 2
  simp only [length_append, length_replicate]
  have hlengths : (ascii "Content-type: ").length = 14 ∧ (ascii "text/").length = 5 ∧
      (ascii ";charset=").length = 9 ∧ (ascii "UTF-8").length = 5 := by decide
  omega

theorem addedHeader_textType (hn : n ≠ 0) (hlt : n + 19 < 0x100000000) :
    addedHeader unsent (.line .add ⟨textType n, 0⟩) = some (storedHeader unsent (textType n)) := by
  have hcheck : lineCheck (textType n) = some none :=
    lineCheck_eq_some_none.mpr ⟨lineClean_textType, length_textType.trans_lt hlt⟩
  have hline : textType n ≠ [] := fun hnil => by
    have hlength := length_textType (n := n)
    rw [hnil] at hlength
    cases hlength
  have hstatus : isStatusLine (textType n) = false := rfl
  have hadded := addedHeader_line unsent .add ⟨textType n, 0⟩ (by decide)
    hline (by decide) ((trim_textType hn).symm ▸ hcheck) ((trim_textType hn).symm ▸ hstatus)
  rw [hadded, trim_textType hn]
  exact if_pos rfl

end TextType

/-- A media type of almost `2 ^ 32` bytes: the header that is stored has more, its length is that
less `2 ^ 32`. -/
theorem not_noInjection :
    ¬∀ (evs : List HeaderEvent) (h : SapiHeaders),
      system.Run Configured (sapiActivate ⟨fun _ => none, fun _ => none⟩ (fun _ => ⟨[], 0⟩) 200)
        evs h →
      system.Throughout NoInjection (sapiActivate ⟨fun _ => none, fun _ => none⟩
        (fun _ => ⟨[], 0⟩) 200) evs := by
  intro hclaim
  have hadded := addedHeader_textType (n := 0xffffffe0) (by decide) (by decide)
  obtain ⟨h, hstep⟩ := exists_step_of_added
    (sapiActivate ⟨fun _ => none, fun _ => none⟩ (fun _ => ⟨[], 0⟩) 200)
    (onUnsent (.line .add ⟨textType 0xffffffe0, 0⟩)) hadded
  have hsafe := (hclaim _ h (.cons (configured_onUnsent _ _) hstep (.nil h))).2 h hstep
  refine not_noInjection_step wellFormed_sapiActivate (configured_onUnsent _ _) ?_ hstep hsafe
  intro hshort
  have hlength := (headerLen_eq_iff hadded).mpr (hshort _ hadded)
  rw [storedHeader_textType] at hlength
  simp only [length_append, length_replicate] at hlength
  omega

end Headers

end Phpce

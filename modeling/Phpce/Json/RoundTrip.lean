import Phpce.Json.Emitted
import Phpce.Json.Parser

/-!
# Decoding what has been encoded

* `Plain` are the values of null, booleans, integers, UTF-8 strings and arrays.
* `fold_documentOf`: the document of such a value denotes it, whatever the options are.
* **`phpJsonParse_encode`**: the round trip.
* **`phpJsonParse_decoded`**: what is decoded is of that kind, doubles apart.
-/

namespace Phpce

namespace Json

open Bytes JsonText Utf8 List

/-! ## Integers -/

section

variable {δ : Type*} (P : Platform δ) (options : ParserOptions)

theorem value_longMinDigits : value longMinDigits = 0x8000000000000000 := by decide

theorem strcmp_longMinDigits {n : Nat} (hlen : (decimalNat n).length = intMaxLength) :
    strcmp (decimalNat n) longMinDigits =
      if n < 0x8000000000000000 then .lt else if 0x8000000000000000 < n then .gt else .eq := by
  have h := strcmp_digits (x := []) (y := []) (digits_decimalNat n)
    NumericString.IntegerString.longMinDigits_digit hlen
  rw [append_nil, append_nil, value_decimalNat] at h
  rw [← value_longMinDigits]
  exact h

theorem head?_decimalNat_ne (n : Nat) : (decimalNat n).head? ≠ some 45 := by
  intro h
  obtain ⟨t, ht⟩ := List.head?_eq_some_iff.mp h
  have hdigit := digits_decimalNat n 45 (by rw [ht]; exact mem_cons_self)
  exact absurd hdigit (by decide)

theorem isBigint_digits {token : Bytes} {n : Nat} (negative : Bool)
    (hsign : decide (token.head? = some 45) = negative)
    (hdigits : (if token.head? = some 45 then token.drop 1 else token) = decimalNat n)
    (h : n < 0x8000000000000000 ∨ negative = true ∧ n = 0x8000000000000000) :
    isBigint token = false := by
  have hlen : (decimalNat n).length ≤ 19 := length_decimalNat_le (by decide) (by omega)
  rw [isBigint]
  simp only [hsign, hdigits]
  split
  next hlong =>
    have heq : (decimalNat n).length = intMaxLength := Nat.le_antisymm hlen hlong
    rw [if_pos heq, strcmp_longMinDigits heq]
    rcases h with h | ⟨rfl, rfl⟩
    · rw [if_pos h]
      rfl
    · rfl
  next => rfl

theorem numberToken_decimal {n : Int} (h : InLong n) :
    numberToken P options (decimal n) = .int n := by
  obtain ⟨hlow, hhigh⟩ : -9223372036854775808 ≤ n ∧ n < 9223372036854775808 := h
  have hparts := numberToken_parts P options (integer_decimal n) .none .none
  rw [append_nil, append_nil] at hparts
  rw [hparts, partsToken]
  show intToken P options (decimal n) = _
  rw [intToken, strtol]
  obtain ⟨k, rfl | rfl⟩ := n.eq_nat_or_neg
  · rw [decimal_ofNat, isBigint_digits false (decide_eq_false (head?_decimalNat_ne k))
      (if_neg (head?_decimalNat_ne k)) (.inl (by omega)), if_neg (head?_decimalNat_ne k),
      value_decimalNat]
    rfl
  · cases k with
    | zero => rfl
    | succ k =>
      have hle : k + 1 ≤ 0x8000000000000000 := by omega
      rw [decimal_neg k.succ_pos, isBigint_digits (n := k + 1) true rfl rfl
        ((Nat.lt_or_eq_of_le hle).imp_right fun heq => ⟨rfl, heq⟩)]
      show Token.int (-(value (decimalNat k.succ) : Int)) = _
      rw [value_decimalNat]

end

/-! ## Keys -/

def NormalKey : Key → Prop
  | .index h => InLong h
  | .name key => NumericKey.zendHandleNumericStr key = none ∧ ∃ cs, key = encode cs

def keyString : Key → Bytes
  | .index h => decimal h
  | .name key => key

theorem firstCharTest_decimal (n : Int) : NumericKey.firstCharTest (decimal n) = true := by
  have hdigit : ∀ k, IsDigit (NumericKey.at' (decimalNat k) 0) := by
    intro k
    obtain ⟨c, t, ht⟩ := exists_cons_of_ne_nil (decimalNat_ne_nil k)
    have hc := digits_decimalNat k c (by rw [ht]; exact mem_cons_self)
    rw [ht]
    exact hc
  refine (NumericKey.firstCharTest_iff _).mpr ?_
  obtain ⟨k, rfl | rfl⟩ := n.eq_nat_or_neg
  · exact .inl (hdigit k)
  · cases k with
    | zero => exact .inl (hdigit 0)
    | succ k =>
      rw [decimal_neg k.succ_pos]
      exact .inr ⟨rfl, hdigit (k + 1)⟩

theorem symtableKey_keyString {key : Key} (h : NormalKey key) :
    symtableKey (keyString key) = key := by
  cases key with
  | name key =>
    show symtableKey key = _
    rw [symtableKey, h.1]
  | index n =>
    obtain ⟨hlow, hhigh⟩ : -9223372036854775808 ≤ n ∧ n < 9223372036854775808 := h
    have hindex : NumericKey.zendLong (Int64.ofInt n).toUInt64 = n :=
      Int64.toInt_ofInt_of_le hlow hhigh
    have hsome : NumericKey.zendHandleNumericStrEx (decimal n) = some (Int64.ofInt n).toUInt64 :=
      (NumericKey.zendHandleNumericStrEx_eq_some_iff (firstCharTest_decimal n)).mpr
        ⟨n, hlow, Int.le_of_lt_add_one hhigh, rfl, hindex⟩
    show symtableKey (decimal n) = _
    rw [symtableKey, NumericKey.zendHandleNumericStr, if_pos (firstCharTest_decimal n), hsome]
    exact congrArg Key.index hindex

section

variable {β : Type*}

theorem foldl_nextIndexInsert {entries : List (Key × β)} (acc : List (Key × β))
    (h : isSequence entries acc.length = true) :
    (entries.map Prod.snd).foldl nextIndexInsert acc = acc ++ entries := by
  induction entries generalizing acc with
  | nil => exact (append_nil acc).symm
  | cons entry entries ih =>
    obtain ⟨n | key, v⟩ := entry
    · have hboth : n = (acc.length : Int) ∧ isSequence entries (acc.length + 1) = true := by
        rw [isSequence, Bool.and_eq_true, beq_iff_eq] at h
        exact h
      have hrest := ih (nextIndexInsert acc v) (by
        rw [nextIndexInsert, length_append]
        exact hboth.2)
      rw [map_cons, foldl_cons, hrest, nextIndexInsert, append_assoc, hboth.1]
      rfl
    · exact absurd h (by simp [isSequence])

theorem foldl_symtableUpdate (key : Bytes → Bytes) {entries : List (Key × β)}
    {members : List (Bytes × β)} (acc : List (Key × β))
    (h : List.Forall₂ (fun entry m => symtableKey (key m.1) = entry.1 ∧ m.2 = entry.2) entries
      members)
    (hnodup : ((acc ++ entries).map Prod.fst).Nodup) :
    members.foldl (fun acc m => symtableUpdate acc (key m.1) m.2) acc = acc ++ entries := by
  induction h generalizing acc with
  | nil => exact (append_nil acc).symm
  | @cons entry m entries members hm hrest ih =>
    have hnew : entry.1 ∉ acc.map Prod.fst := by
      rw [map_append, map_cons] at hnodup
      exact fun hmem => (nodup_append.mp hnodup).2.2 _ hmem _ mem_cons_self rfl
    have hstep : symtableUpdate acc (key m.1) m.2 = acc ++ [entry] := by
      rw [symtableUpdate, hm.1, hashUpdate, if_neg hnew, hm.2]
    rw [foldl_cons, hstep, ih _ (by rw [append_assoc]; exact hnodup),
      append_assoc]
    rfl

end

/-! ## Values -/

section

variable (options : EncoderOptions) {δ : Type*} (D : Doubles δ) (P : Platform δ)

/-- What is built from null, booleans, integers, UTF-8 strings and arrays. -/
inductive Plain : Zval δ → Prop
  | null : Plain .null
  | bool (b : Bool) : Plain (.bool b)
  | long {n : Int} (hn : InLong n) : Plain (.long n)
  | string (cs : List Char) : Plain (.string (encode cs))
  | array {entries : List (Key × Zval δ)} (hkeys : ∀ entry ∈ entries, NormalKey entry.1)
      (hnodup : (entries.map Prod.fst).Nodup) (hentries : ∀ entry ∈ entries, Plain entry.2) :
      Plain (.array entries)

/-- An `int` counts the UTF-16 units of a string, where they are counted, and by how many bytes its
literal is longer. -/
def Countable (s : Bytes) : Prop :=
  (options.unescapedUnicode = true → ∀ cs, s = encode cs → utf16Length cs < 2 ^ 31) ∧
    ∀ body, escapeText options s = some body → body.length < s.length + 2 ^ 31

/-- An `int` counts what is counted of the strings, keys and arrays of a value. -/
inductive Measured : Zval δ → Prop
  | null : Measured .null
  | bool (b : Bool) : Measured (.bool b)
  | long (n : Int) : Measured (.long n)
  | string {s : Bytes} (hs : Countable options s) : Measured (.string s)
  | array {entries : List (Key × Zval δ)} (hlen : entries.length < 2 ^ 31)
      (hkeys : ∀ entry ∈ entries, ∀ key, entry.1 = .name key → Countable options key)
      (hentries : ∀ entry ∈ entries, Measured entry.2) : Measured (.array entries)

variable {options}

theorem accepts_of_countable {cs : List Char} (h : Countable options (encode cs)) :
    Accepts options (encode cs) :=
  ⟨cs, rfl, fun hunicode => Nat.lt_of_le_of_lt (Nat.mod_le _ _) (h.1 hunicode cs rfl)⟩

theorem exists_body {cs : List Char} (h : Countable options (encode cs)) :
    ∃ body, escapeText options (encode cs) = some body ∧ stringValue P body = encode cs := by
  obtain ⟨body, hliteral, hbody⟩ := escapeText_eq_some options fun hunicode =>
    Nat.lt_of_le_of_lt (Nat.mod_le _ _) (h.1 hunicode cs rfl)
  exact ⟨body, hbody, stringValue_eq P hliteral (h.2 body hbody)⟩

theorem keyOptions_eq (hcheck : options.numericCheck = false) : keyOptions options = options := by
  cases options
  cases hcheck
  rfl

theorem keyAccepted_of_normalKey {key : Key} (h : NormalKey key)
    (hcount : ∀ s, key = .name s → Countable options s) : KeyAccepted options key := by
  cases key with
  | index n => trivial
  | name s =>
    obtain ⟨-, cs, rfl⟩ := h
    exact accepts_of_countable (hcount _ rfl)

theorem stringValue_keyLiteral (hcheck : options.numericCheck = false) {key : Key}
    (h : NormalKey key) (hcount : ∀ s, key = .name s → Countable options s) :
    stringValue P (keyLiteral options key) = keyString key := by
  cases key with
  | index n =>
    obtain ⟨cs, hliteral, hcs⟩ := literal_decimal n
    have hvalue := stringValue_eq P hliteral (by rw [hcs]; omega)
    rw [keyLiteral, hvalue, ← hcs]
    rfl
  | name s =>
    obtain ⟨-, cs, rfl⟩ := h
    obtain ⟨body, hbody, hvalue⟩ := exists_body P (hcount _ rfl)
    rw [keyLiteral, keyOptions_eq hcheck, hbody]
    exact hvalue

theorem numElements_pos_iff {β : Type*} {entries : List (Key × β)}
    (hlen : entries.length < 2 ^ 31) : numElements entries > 0 ↔ entries ≠ [] := by
  have hzero : (0 : Int32).toInt = 0 := rfl
  rw [numElements, gt_iff_lt, Int32.lt_iff_toInt_lt, toInt_ofNat hlen, hzero, Int.natCast_pos,
    length_pos_iff]

theorem reached_eq {β : Type*} {entries : List (Key × β)} (hlen : entries.length < 2 ^ 31) :
    reached options false entries = entries := by
  have hvisited : ∀ r, visited false r entries = entries := by
    intro r
    refine filter_eq_self.mpr fun entry _ => ?_
    rw [isSkipped.eq_def]
    cases entry.1 <;> simp
  rw [reached, hvisited]
  split
  next => rfl
  next hcount =>
    rw [numElements_pos_iff hlen, Decidable.not_not] at hcount
    exact hcount.symm

theorem isSequence_of_outputType {β : Type*} {entries : List (Key × β)}
    (hlen : entries.length < 2 ^ 31) (h : outputType options false entries = .array) :
    isSequence entries 0 = true := by
  rw [outputType, if_neg (by decide)] at h
  split at h
  next => exact absurd h (by decide)
  next =>
    rw [phpJsonDetermineArrayType] at h
    split at h
    next => exact absurd h (by decide)
    next hcond =>
      by_cases hnil : entries = []
      · rw [hnil]
        rfl
      · exact Bool.not_eq_false _ ▸ fun hfalse =>
          hcond ⟨(numElements_pos_iff hlen).mpr hnil, hfalse⟩

theorem fold_documentOf (hcheck : options.numericCheck = false) {z : Zval δ} (hz : Plain z)
    (hmeasured : Measured options z) :
    (documentOf options D z).fold (zvalOf P objectAsArray) = z := by
  induction hz with
  | null => rfl
  | bool b => rfl
  | long hn =>
    show (tokenValue (numberToken P objectAsArray (decimal _))).getD .null = _
    rw [numberToken_decimal P objectAsArray hn]
    rfl
  | string cs =>
    cases hmeasured with
    | string hs =>
      obtain ⟨body, hbody, hvalue⟩ := exists_body P hs
      have hdocument : stringDocument options D (encode cs) = .string body := by
        rw [stringDocument, hcheck, hbody]
        split
        next hlen =>
          rw [length_eq_zero_iff.mp hlen, escapeText_nil] at hbody
          rw [Option.some.inj hbody]
        next => rfl
      show (stringDocument options D (encode cs)).fold _ = _
      rw [hdocument]
      exact congrArg Zval.string hvalue
  | @array entries hkeys hnodup hentries ih =>
    cases hmeasured with
    | array hlen hcount hmeasured =>
      rw [documentOf_array, arrayDocument_map, reached_eq hlen]
      cases hr : outputType options false entries with
      | array =>
        show Document.fold _ (.array _) = _
        have hvalues : entries.map (fun entry =>
            (documentOf options D entry.2).fold (zvalOf P objectAsArray)) = entries.map Prod.snd :=
          map_congr_left fun entry hentry => ih entry hentry (hmeasured entry hentry)
        rw [Document.fold_array, List.map_map]
        refine congrArg Zval.array (Eq.trans (congrArg (List.foldl nextIndexInsert []) hvalues) ?_)
        exact foldl_nextIndexInsert [] (isSequence_of_outputType hlen hr)
      | object =>
        show Document.fold _ (.object _) = _
        have hmembers : List.Forall₂ (fun entry m => symtableKey (stringValue P m.1) = entry.1 ∧
            m.2 = entry.2) entries (entries.map fun entry => (keyLiteral options entry.1,
              (documentOf options D entry.2).fold (zvalOf P objectAsArray))) := by
          rw [forall₂_map_right_iff, forall₂_same]
          intro entry hentry
          refine ⟨?_, ih entry hentry (hmeasured entry hentry)⟩
          show symtableKey (stringValue P (keyLiteral options entry.1)) = entry.1
          rw [stringValue_keyLiteral P hcheck (hkeys entry hentry) (hcount entry hentry),
            symtableKey_keyString (hkeys entry hentry)]
        rw [Document.fold_object, List.map_map]
        exact congrArg Zval.array (foldl_symtableUpdate (stringValue P) [] hmembers hnodup)

theorem nesting_documentOf {z : Zval δ} (hz : Plain z) (hcheck : options.numericCheck = false) :
    (documentOf options D z).nesting = nesting options z := by
  induction hz with
  | null | bool | long => rfl
  | string cs =>
    show (stringDocument options D (encode cs)).nesting = 0
    rw [stringDocument, hcheck]
    split
    next => rfl
    next => cases escapeText options (encode cs) <;> rfl
  | @array entries _ _ _ ih =>
    have hvalues : (reached options false entries).map (fun entry =>
        (documentOf options D entry.2).nesting) = (reached options false entries).map fun entry =>
          nesting options entry.2 :=
      map_congr_left fun entry hentry => ih entry (mem_of_reached options hentry)
    rw [documentOf_array, arrayDocument_map, nesting_array, ← hvalues]
    cases outputType options false entries with
    | array => exact (Document.nesting_array _).trans (by rw [List.map_map]; rfl)
    | object => exact (Document.nesting_object _).trans (by rw [List.map_map]; rfl)

theorem stringText_of_countable (hcheck : options.numericCheck = false) {cs : List Char}
    (h : Countable options (encode cs)) : stringText options D (encode cs) ≠ none :=
  fun hnone => (stringText_eq_none_iff options D hcheck).mp hnone (accepts_of_countable h)

theorem complete_of_plain (hcheck : options.numericCheck = false) {z : Zval δ} (hz : Plain z)
    (hmeasured : Measured options z) : complete options D z := by
  induction hz with
  | null | bool | long => trivial
  | string cs =>
    cases hmeasured with
    | string hs => exact stringText_of_countable D hcheck hs
  | array hkeys hnodup hentries ih =>
    cases hmeasured with
    | array hlen hcount hmeasured =>
      rw [complete_array]
      intro entry hentry
      exact ih entry (mem_of_reached options hentry)
        (hmeasured entry (mem_of_reached options hentry))

theorem derives_plain (hcheck : options.numericCheck = false) {z : Zval δ} (hz : Plain z)
    (hmeasured : Measured options z) (depth : Nat) :
    Derives (.value (documentOf options D z)) (written options D z depth) := by
  induction hz generalizing depth with
  | null => exact .null
  | bool b =>
    cases b with
    | false => exact .fls
    | true => exact .tru
  | long hn => exact .number (integer_decimal _).number
  | string cs =>
    cases hmeasured with
    | string hs =>
      exact derives_stringText options D (fun h => absurd h (by rw [hcheck]; decide))
        (.inl (stringText_of_countable D hcheck hs))
  | array hkeys hnodup hentries ih =>
    cases hmeasured with
    | array hlen hcount hmeasured =>
      rw [written_array, documentOf_array]
      refine derives_arrayText options D (fun entry hentry => ?_) depth
      have hmem := mem_of_reached options hentry
      exact ⟨fun _ => keyAccepted_of_normalKey (hkeys entry hmem) (hcount entry hmem),
        ih entry hmem (hmeasured entry hmem)⟩

variable (options)

/-- The encoder succeeds, and the decoder gives the value back. -/
def RoundTrips (maxDepth depth : Int) (z : Zval δ) : Prop :=
  (phpJsonEncodeZval options D maxDepth z initial).1 = .success ∧
    phpJsonParse P objectAsArray depth (phpJsonEncodeZval options D maxDepth z initial).2.buf =
      .ok z

/-- **The round trip.** A value of null, booleans, integers, UTF-8 strings and arrays with distinct
normalised keys, which is not nested deeper than the encoder and less deep than the decoder admits,
comes back from its text, whatever the options without numeric checks and partial output are, where
the stack of the parser can hold it and each `int` counts what is counted in it. -/
theorem phpJsonParse_encode (hcheck : options.numericCheck = false)
    (hout : options.partialOutputOnError = false) {maxDepth depth : Int} {z : Zval δ}
    (hz : Plain z) (hmeasured : Measured options z)
    (hencode : nesting options z = 0 ∨ (nesting options z : Int) ≤ maxDepth)
    (hdecode : Admitted depth (nesting options z))
    (hstack : stackNeed (documentOf options D z) ≤ 9998) :
    RoundTrips options D P maxDepth depth z := by
  have hstatus : (phpJsonEncodeZval options D maxDepth z initial).1 = .success := by
    refine (phpJsonEncodeZval_success_iff options D maxDepth hout z initial).mpr
      ⟨complete_of_plain D hcheck hz hmeasured, hencode.imp_right fun h => ?_⟩
    show ((0 : Nat) : Int) + _ ≤ _
    omega
  have hbuf := (phpJsonEncodeZval_appends options D maxDepth z initial (.inl hstatus)).buf
  have htext := Text.intro space_nil (derives_plain D hcheck hz hmeasured 0) space_nil
  rw [nil_append, append_nil] at htext
  refine ⟨hstatus, ?_⟩
  rw [hbuf]
  refine (text_iff P objectAsArray depth _ z htext).mpr ⟨⟨hstack, ?_⟩, ?_⟩
  · rw [nesting_documentOf D hz hcheck]
    exact hdecode
  · exact fold_documentOf D P hcheck hz hmeasured

end

/-! ## A value that comes back, and one that does not -/

/-- Nothing is read of doubles and of fresh memory. -/
def unitPlatform : Platform Unit where
  strtod _ := ()
  uninit _ := 0

theorem plain_singleton : Plain (.array (singleton (ascii "a"))) := by
  refine .array ?_ (nodup_singleton _) ?_
  · exact forall_mem_singleton.mpr ⟨by decide, ['a'], by decide⟩
  · exact forall_mem_singleton.mpr (.long (by decide))

theorem measured_singleton : Measured noOptions (.array (singleton (ascii "a"))) := by
  refine .array (by decide) ?_ (forall_mem_singleton.mpr (.long 1))
  refine forall_mem_singleton.mpr ?_
  rintro key ⟨⟩
  refine ⟨fun h => absurd h (by decide), fun body hbody => ?_⟩
  have htext : escapeText noOptions (ascii "a") = some (ascii "a") := by decide +kernel
  obtain rfl := Option.some.inj (htext.symm.trans hbody)
  decide

theorem phpJsonParse_encode_singleton :
    RoundTrips noOptions zeroDoubles unitPlatform 512 512 (.array (singleton (ascii "a"))) :=
  phpJsonParse_encode noOptions zeroDoubles unitPlatform rfl rfl plain_singleton measured_singleton
    (.inr (by decide)) (.inr (.inr (by decide))) (by decide)

/-- `n + 1` arrays in each other. -/
def nestedZval : Nat → Zval Unit
  | 0 => .array []
  | n + 1 => .array [(.index 0, nestedZval n)]

theorem plain_nestedZval (n : Nat) : Plain (nestedZval n) := by
  induction n with
  | zero =>
    exact .array (fun _ h => absurd h not_mem_nil) nodup_nil fun _ h =>
      absurd h not_mem_nil
  | succ n ih =>
    exact .array (forall_mem_singleton.mpr (by decide : InLong 0)) (nodup_singleton _)
      (forall_mem_singleton.mpr ih)

theorem nesting_nestedZval (n : Nat) : nesting noOptions (nestedZval n) = n + 1 := by
  induction n with
  | zero => rfl
  | succ n ih =>
    have hreached : reached noOptions false [(.index 0, nestedZval n)] =
        [(.index 0, nestedZval n)] := reached_eq (Nat.one_lt_two_pow (by decide))
    rw [nestedZval, nesting_array, hreached, map_singleton, ih, Document.highest_singleton]

theorem written_nestedZval (n depth : Nat) :
    written noOptions zeroDoubles (nestedZval n) depth = nestedText (n + 1) := by
  induction n generalizing depth with
  | zero => rfl
  | succ n ih =>
    have hclose : List.replicate (n + 2) (93 : UInt8) = List.replicate (n + 1) 93 ++ [93] :=
      replicate_succ'
    rw [nestedZval, written_array, nestedText, hclose]
    show [91] ++ (written noOptions zeroDoubles (nestedZval n) (depth + 1) ++ []) ++ [] ++ [93] = _
    rw [ih, nestedText, append_nil, append_nil]
    simp only [append_assoc]
    rfl

/-- 5000 arrays in each other are encoded, and their text is refused. -/
theorem not_roundTrips_nestedZval :
    Plain (nestedZval 4999) ∧ nesting noOptions (nestedZval 4999) < 6000 ∧
      ¬RoundTrips noOptions zeroDoubles unitPlatform 6000 6000 (nestedZval 4999) := by
  refine ⟨plain_nestedZval 4999, by rw [nesting_nestedZval]; decide, ?_⟩
  rintro ⟨hstatus, hparse⟩
  have hbuf := (phpJsonEncodeZval_appends noOptions zeroDoubles 6000 (nestedZval 4999) initial
    (.inl hstatus)).buf
  rw [hbuf, written_nestedZval] at hparse
  exact parse_nestedText unitPlatform (by decide) 6000 _ hparse

/-! ## What is decoded -/

theorem lt_of_not_isBigint {token : Bytes} {n : Nat}
    (hdigits : (if token.head? = some 45 then token.drop 1 else token) = decimalNat n)
    (h : isBigint token = false) :
    n < 0x8000000000000000 ∨ token.head? = some 45 ∧ n = 0x8000000000000000 := by
  rw [isBigint] at h
  simp only [hdigits] at h
  split at h
  next hlong =>
    split at h
    next heq =>
      rw [strcmp_longMinDigits heq] at h
      by_cases hlt : n < 0x8000000000000000
      · exact .inl hlt
      rw [if_neg hlt] at h
      by_cases hgt : 0x8000000000000000 < n
      · rw [if_pos hgt] at h
        cases h
      · rw [if_neg hgt] at h
        exact .inr ⟨by simpa using h, by omega⟩
    next => cases h
  next hshort =>
    have hlt := value_lt (digits_decimalNat n)
    rw [value_decimalNat] at hlt
    have hpow : 10 ^ (decimalNat n).length ≤ 10 ^ 18 :=
      Nat.pow_le_pow_right (by decide) (Nat.le_of_lt_succ (Nat.not_le.mp hshort))
    omega

theorem inLong_strtol {token : Bytes} (hint : Integer token) (h : isBigint token = false) :
    InLong (strtol token) := by
  cases hint with
  | nonneg hds =>
    rw [← decimalNat_value hds] at h ⊢
    have hhead := head?_decimalNat_ne (value token)
    obtain hlt | hneg := lt_of_not_isBigint (if_neg hhead) h
    · rw [strtol, if_neg hhead, value_decimalNat]
      exact ⟨by omega, by omega⟩
    · exact absurd hneg.1 hhead
  | @neg ds hds =>
    rw [← decimalNat_value hds] at h ⊢
    have hle := lt_of_not_isBigint (if_pos rfl) h
    show InLong (-(value (decimalNat (value ds)) : Int))
    rw [value_decimalNat]
    exact ⟨by omega, by omega⟩

section

variable {δ : Type*} (P : Platform δ)

/-- What is built from null, booleans, numbers, UTF-8 strings and arrays. -/
inductive Decoded : Zval δ → Prop
  | null : Decoded .null
  | bool (b : Bool) : Decoded (.bool b)
  | long {n : Int} (hn : InLong n) : Decoded (.long n)
  | double (d : δ) : Decoded (.double d)
  | string (cs : List Char) : Decoded (.string (encode cs))
  | array {entries : List (Key × Zval δ)} (hkeys : ∀ entry ∈ entries, NormalKey entry.1)
      (hnodup : (entries.map Prod.fst).Nodup) (hentries : ∀ entry ∈ entries, Decoded entry.2) :
      Decoded (.array entries)

theorem decoded_number {l : Bytes} (hl : Number l) :
    Decoded ((zvalOf P objectAsArray).number l) := by
  cases hl with
  | @intro i f e hi hf he =>
    show Decoded ((tokenValue (numberToken P objectAsArray (i ++ f ++ e))).getD .null)
    rw [numberToken_parts P objectAsArray hi hf he, partsToken]
    split
    · rw [intToken]
      split
      next hbig => exact .long (inLong_strtol hi (by simpa using hbig))
      next => exact .double _
    · exact .double _

theorem normalKey_symtableKey (cs : List Char) : NormalKey (symtableKey (encode cs)) := by
  rw [symtableKey]
  split
  next idx _ => exact ⟨Int64.le_toInt _, Int64.toInt_lt _⟩
  next hnone => exact ⟨hnone, cs, rfl⟩

theorem foldl_nextIndexInsert_nil (vs : List (Zval δ)) :
    vs.foldl nextIndexInsert [] = vs.zipIdx.map fun (v, i) => (.index i, v) := by
  -- induction on the elements, the last one first
  induction vs using List.reverseRecOn with
  | nil => rfl
  | append_singleton vs v ih =>
    rw [foldl_append, ih, zipIdx_append, map_append]
    show nextIndexInsert _ v = _
    rw [nextIndexInsert, length_map, length_zipIdx, Nat.zero_add]
    rfl

theorem decoded_foldl_nextIndexInsert {vs : List (Zval δ)} (hlen : vs.length ≤ 2 ^ 31)
    (h : ∀ v ∈ vs, Decoded v) : Decoded (.array (vs.foldl nextIndexInsert [])) := by
  rw [foldl_nextIndexInsert_nil]
  refine .array (forall_mem_map.mpr fun (v, i) hmem => ?_) ?_
    (forall_mem_map.mpr fun (v, i) hmem => h v (fst_mem_of_mem_zipIdx hmem))
  · have hlt := (List.getElem?_eq_some_iff.mp (mk_mem_zipIdx_iff_getElem?.mp hmem)).1
    exact ⟨by show _ ≤ (i : Int); omega, by show (i : Int) < _; omega⟩
  · have hkeys : (vs.zipIdx.map fun (v, i) => (Key.index i, v)).map Prod.fst =
        (vs.zipIdx.map Prod.snd).map fun i => .index i := by
      rw [map_map, map_map]
      rfl
    rw [hkeys, zipIdx_map_snd]
    exact Nodup.map (fun _ _ h => Int.ofNat.inj (Key.index.inj h)) List.nodup_range'

theorem decoded_symtableUpdate {entries : List (Key × Zval δ)} {v : Zval δ} (cs : List Char)
    (h : Decoded (.array entries)) (hv : Decoded v) :
    Decoded (.array (symtableUpdate entries (encode cs) v)) := by
  have hkey := normalKey_symtableKey cs
  cases h with
  | array hkeys hnodup hentries =>
    rw [symtableUpdate, hashUpdate]
    split
    · refine .array (forall_mem_map.mpr fun entry hmem => ?_)
        (by rw [OrderedMap.map_fst_replace]; exact hnodup)
        (forall_mem_map.mpr fun entry hmem => ?_)
      · split
        · exact hkey
        · exact hkeys entry hmem
      · split
        · exact hv
        · exact hentries entry hmem
    next hnew =>
      refine .array (forall_mem_append.mpr ⟨hkeys, forall_mem_singleton.mpr hkey⟩) ?_
        (forall_mem_append.mpr ⟨hentries, forall_mem_singleton.mpr hv⟩)
      rw [map_append]
      exact hnodup.append (nodup_singleton _) (disjoint_singleton.mpr hnew)

theorem decoded_foldl_symtableUpdate {ms : List (Bytes × Zval δ)} {entries : List (Key × Zval δ)}
    (h : Decoded (.array entries))
    (hms : ∀ m ∈ ms, (∃ cs, stringValue P m.1 = encode cs) ∧ Decoded m.2) :
    Decoded (.array (ms.foldl (fun entries m =>
      symtableUpdate entries (stringValue P m.1) m.2) entries)) := by
  induction ms generalizing entries with
  | nil => exact h
  | cons m ms ih =>
    obtain ⟨⟨cs, hcs⟩, hv⟩ := hms m mem_cons_self
    refine ih ?_ fun m hm => hms m (mem_cons_of_mem _ hm)
    show Decoded (.array (symtableUpdate entries (stringValue P m.1) m.2))
    rw [hcs]
    exact decoded_symtableUpdate cs h hv

theorem decoded_nil : Decoded (.array ([] : List (Key × Zval δ))) :=
  .array (fun _ h => absurd h not_mem_nil) nodup_nil fun _ h => absurd h not_mem_nil

/-- What a phrase of a text of `n` bytes makes. -/
def DecodedPhrase (n : Nat) : Phrase → Prop
  | .value j => Decoded (j.fold (zvalOf P objectAsArray))
  | .elements js => js.length ≤ n + 1 ∧ ∀ j ∈ js, Decoded (j.fold (zvalOf P objectAsArray))
  | .member key j =>
    (∃ cs, stringValue P key = encode cs) ∧ Decoded (j.fold (zvalOf P objectAsArray))
  | .members ms => ∀ m ∈ ms, (∃ cs, stringValue P m.1 = encode cs) ∧
      Decoded (m.2.fold (zvalOf P objectAsArray))

theorem stringValue_of_lt {cs : List Char} {body : Bytes} (h : Literal cs body)
    (hlen : (quoted body).length < 2 ^ 31) : stringValue P body = encode cs := by
  rw [quoted, length_cons, length_append] at hlen
  exact stringValue_eq P h (by omega)

theorem decodedPhrase {phrase : Phrase} {s : Bytes} (h : Derives phrase s)
    (hlen : s.length < 2 ^ 31) : DecodedPhrase P s.length phrase := by
  induction h with
  | null => exact .null
  | tru => exact .bool true
  | fls => exact .bool false
  | number hs => exact decoded_number P hs
  | @string cs body hs =>
    show Decoded (.string (stringValue P body))
    rw [stringValue_of_lt P hs hlen]
    exact .string cs
  | emptyArray => exact decoded_nil
  | array ha hs hb ih =>
    rw [length_append, length_append] at hlen
    obtain ⟨hcount, hjs⟩ := ih (by omega)
    show Decoded (Document.fold _ (.array _))
    rw [Document.fold_array]
    exact decoded_foldl_nextIndexInsert (by rw [length_map]; omega) (forall_mem_map.mpr hjs)
  | element hs ih => exact ⟨Nat.le_add_left _ _, forall_mem_singleton.mpr (ih hlen)⟩
  | @moreElements js j s c t hs hc ht ihs iht =>
    have hcomma : 0 < c.length := by
      obtain ⟨hw, hw'⟩ := hc
      rw [length_append, length_cons]
      omega
    rw [length_append, length_append] at hlen
    obtain ⟨hcount, hjs⟩ := ihs (by omega)
    refine ⟨?_, forall_mem_append.mpr ⟨hjs, forall_mem_singleton.mpr (iht (by omega))⟩⟩
    rw [length_append, length_append, length_append, length_singleton]
    omega
  | emptyObject => exact decoded_nil
  | object ha hs hb ih =>
    rw [length_append, length_append] at hlen
    show Decoded (Document.fold _ (.object _))
    rw [Document.fold_object]
    exact decoded_foldl_symtableUpdate P decoded_nil (forall_mem_map.mpr (ih (by omega)))
  | pair hkey hc ht ih =>
    rw [length_append, length_append] at hlen
    exact ⟨⟨_, stringValue_of_lt P hkey (by omega)⟩, ih (by omega)⟩
  | member hs ih => exact forall_mem_singleton.mpr (ih hlen)
  | moreMembers hs hc ht ihs iht =>
    rw [length_append, length_append] at hlen
    exact forall_mem_append.mpr ⟨ihs (by omega), forall_mem_singleton.mpr (iht (by omega))⟩

/-- **What is decoded is well formed**: integers fit, strings are UTF-8, and keys are normalised and
distinct. -/
theorem phpJsonParse_decoded {maxDepth : Int} {buffer : Bytes} {z : Zval δ}
    (hlen : buffer.length < 2 ^ 31)
    (h : phpJsonParse P objectAsArray maxDepth buffer = .ok z) : Decoded z := by
  obtain ⟨j, htext, -, rfl⟩ := (parse_eq_ok_iff P objectAsArray maxDepth rfl buffer z).mp h
  cases htext with
  | intro hw hs hw' =>
    rw [length_append, length_append] at hlen
    exact decodedPhrase P hs (by omega)

theorem phpJsonParse_decoded_nested :
    Decoded (.array [(.index 0, .array [])] : Zval Unit) := by
  have hparse : phpJsonParse unitPlatform objectAsArray 512 (nestedText 2) =
      .ok (.array [(.index 0, .array [])]) :=
    (text_iff unitPlatform objectAsArray 512 _ _ (text_nestedArrays 1)).mpr
      ⟨⟨by decide, .inr (.inr (by decide))⟩, rfl⟩
  exact phpJsonParse_decoded unitPlatform (by decide) hparse

end

end Json

end Phpce

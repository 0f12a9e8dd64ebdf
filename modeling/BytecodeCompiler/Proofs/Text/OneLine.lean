import BytecodeCompiler.Instr.Text
import Mathlib.Data.Fin.Basic

-- Texts that stay on one line. Numbers, quoted texts and the words of the instruction set hold no
-- line feed, so the text of a type, a value or an instruction holds one only if a name inside it
-- does, however deep the name is.

namespace BytecodeCompiler

/-- A text without a line feed. -/
def OneLine (s : String) : Prop := '\n' ∉ s.toList

instance (s : String) : Decidable (OneLine s) := inferInstanceAs (Decidable (¬ _))

/-! ## Texts made of texts -/

namespace OneLine

@[simp] theorem append_iff (s t : String) : OneLine (s ++ t) ↔ OneLine s ∧ OneLine t := by
  simp [OneLine, String.toList_append]

theorem ofList_iff (cs : List Char) : OneLine (String.ofList cs) ↔ '\n' ∉ cs := by
  rw [OneLine, String.toList_ofList]

theorem join {ts : List String} (h : ∀ t ∈ ts, OneLine t) : OneLine (String.join ts) := by
  rw [OneLine, String.toList_join, List.mem_flatMap]
  rintro ⟨t, ht, hmem⟩
  exact h t ht hmem

theorem intercalate (sep : String) {ts : List String} (hsep : OneLine sep)
    (h : ∀ t ∈ ts, OneLine t) : OneLine (sep.intercalate ts) := by
  induction ts with
  | nil => rw [String.intercalate_nil]; decide
  | cons t ts ih =>
    obtain ⟨ht, hts⟩ := List.forall_mem_cons.mp h
    by_cases hnil : ts = []
    · rwa [hnil, String.intercalate_singleton]
    · rw [String.intercalate_cons_of_ne_nil hnil, append_iff, append_iff]
      exact ⟨⟨ht, hsep⟩, ih hts⟩

end OneLine

/-! ## Numbers -/

theorem digitChar_ne_lineFeed {d : Nat} (hd : d < 16) : d.digitChar ≠ '\n' := by
  have hall : ∀ k : Fin 16, k.val.digitChar ≠ '\n' := by decide
  exact hall ⟨d, hd⟩

theorem lineFeed_not_mem_toDigits {base : Nat} (hbase : 1 < base) (hbase' : base ≤ 16) (n : Nat) :
    '\n' ∉ Nat.toDigits base n := by
  induction n using Nat.strongRecOn with
  | ind n ih =>
    rw [Nat.toDigits_eq_if hbase]
    split
    · simp [(digitChar_ne_lineFeed (by omega : n < 16)).symm]
    · have hless : n / base < n := Nat.div_lt_self (by omega) hbase
      have hdigit : n % base < base := Nat.mod_lt n (by omega)
      simp [ih _ hless, (digitChar_ne_lineFeed (by omega : n % base < 16)).symm]

@[simp] theorem oneLine_repr (n : Nat) : OneLine n.repr := by
  rw [Nat.repr_eq_ofList_toDigits, OneLine.ofList_iff]
  exact lineFeed_not_mem_toDigits (by decide) (by decide) n

@[simp] theorem oneLine_intRepr (n : Int) : OneLine n.repr := by
  cases n with
  | ofNat k => exact oneLine_repr k
  | negSucc k =>
    have htext : (Int.negSucc k).repr = "-" ++ (k + 1).repr := rfl
    rw [htext, OneLine.append_iff]
    exact ⟨by decide, oneLine_repr (k + 1)⟩

theorem oneLine_number (x : Decimal.Number) : OneLine x.text := by
  have hdigits := lineFeed_not_mem_toDigits (by decide : 1 < 10) (by decide) x.digits
  have htake : ∀ k, '\n' ∉ (Nat.toDigits 10 x.digits).take k :=
    fun k h => hdigits (List.mem_of_mem_take h)
  have hdrop : ∀ k, '\n' ∉ (Nat.toDigits 10 x.digits).drop k :=
    fun k h => hdigits (List.mem_of_mem_drop h)
  unfold Decimal.Number.text
  simp only
  split
  · rw [OneLine.ofList_iff]
    simp [hdigits, List.mem_replicate]
  · split
    · rw [OneLine.ofList_iff]
      simp [htake, hdrop]
    · rw [OneLine.ofList_iff]
      simp [hdigits, List.mem_replicate]

@[simp] theorem oneLine_float (f : Decimal.Layout) (bits : Nat) : OneLine (f.text bits) := by
  have hsign : ∀ b : Bool, OneLine (if b = true then "-" else "") := by decide
  unfold Decimal.Layout.text
  split
  · decide
  · simp only
    split
    · exact (OneLine.append_iff _ _).mpr ⟨hsign _, by decide⟩
    · split
      · exact (OneLine.append_iff _ _).mpr ⟨hsign _, by decide⟩
      · exact (OneLine.append_iff _ _).mpr ⟨hsign _, oneLine_number _⟩

/-! ## Quoted texts -/

/-- A line feed is escaped, and no escape has one. -/
theorem lineFeed_not_mem_escape {quote : Char} (hquote : quote ≠ '\n') (c : Char) :
    '\n' ∉ Text.escape quote c := by
  have hcode := lineFeed_not_mem_toDigits (by decide : 1 < 16) (by decide) c.toNat
  unfold Text.escape
  split
  · decide
  split
  · decide
  split
  · decide
  split
  · decide
  rename_i hfeed
  split
  · decide
  split
  · simp [hquote.symm]
  split
  · simpa using Ne.symm hfeed
  · simp [Text.codePointEscape, hcode]

@[simp] theorem oneLine_quoted (s : String) : OneLine (Text.quoted s) := by
  have hchars : ∀ c ∈ s.toList, '\n' ∉ Text.escape '"' c :=
    fun c _ => lineFeed_not_mem_escape (by decide) c
  rw [Text.quoted, OneLine.ofList_iff]
  simpa using hchars

@[simp] theorem oneLine_quotedChar (c : Char) : OneLine (Text.quotedChar c) := by
  rw [Text.quotedChar, OneLine.ofList_iff]
  simpa using lineFeed_not_mem_escape (by decide : '\'' ≠ '\n') c

/-! ## Names and words -/

/-- The name of an identifier, if it has one, holds no line feed. -/
def Ident.OnOneLine (i : Ident) : Prop := ∀ s, i = .name s → OneLine s

theorem Ident.OnOneLine.text {i : Ident} (h : i.OnOneLine) : OneLine i.text := by
  cases i with
  | byte n => exact (OneLine.append_iff _ _).mpr ⟨by decide, oneLine_repr _⟩
  | short n => exact (OneLine.append_iff _ _).mpr ⟨by decide, oneLine_repr _⟩
  | name s => exact h s rfl

@[simp] theorem oneLine_register (r : Register) : OneLine r.name := by cases r <;> decide

@[simp] theorem oneLine_operator (op : Operator) : OneLine op.name := by cases op <;> decide

@[simp] theorem oneLine_useMode (mode : UseMode) : OneLine mode.name := by cases mode <;> decide

@[simp] theorem oneLine_safeMark (nilSafe : Bool) : OneLine (Instr.safeMark nilSafe) := by
  cases nilSafe <;> decide

theorem oneLine_declaration {d : Declaration} (h : d.name.OnOneLine) : OneLine d.text := by
  have hname := h.text
  unfold Declaration.text
  cases d.isPub <;> cases d.isConst <;> simp +decide [hname]

/-! ## Types -/

namespace Ty

mutual

/-- All identifiers inside a type. -/
def identsIn : Ty → List Ident
  | .array elem => elem.identsIn
  | .tuple members => identsInAll members
  | .union members => identsInAll members
  | .struct fields => identsInFields fields
  | .lambda params result _ => identsInFields params ++ result.identsIn
  | .ref name => [name]
  | .objRef name => [name]
  | .ident name => [name]
  | _ => []

def identsInAll : List Ty → List Ident
  | [] => []
  | t :: ts => t.identsIn ++ identsInAll ts

def identsInFields : List (Ident × Ty) → List Ident
  | [] => []
  | (name, t) :: fs => name :: (t.identsIn ++ identsInFields fs)

end

mutual

theorem oneLine_text (t : Ty) (h : ∀ i ∈ t.identsIn, i.OnOneLine) : OneLine t.text := by
  cases t with
  | array elem =>
    have helem := oneLine_text elem h
    simp +decide [text, helem]
  | tuple members =>
    have hmembers := OneLine.intercalate ", " (by decide) (oneLine_texts members h)
    simp +decide [text, hmembers]
  | union members => exact OneLine.intercalate " | " (by decide) (oneLine_texts members h)
  | struct fields =>
    have hfields := OneLine.intercalate ", " (by decide) (oneLine_fieldTexts fields h)
    simp +decide [text, hfields]
  | lambda params result variadic =>
    obtain ⟨hparams, hresult⟩ := List.forall_mem_append.mp h
    have hparams := OneLine.intercalate ", " (by decide) (oneLine_fieldTexts params hparams)
    have hresult := oneLine_text result hresult
    cases variadic <;> simp +decide [text, hparams, hresult]
  | ref name | objRef name | ident name =>
    have hname := (h name List.mem_cons_self).text
    simp +decide [text, hname]
  | _ => decide

theorem oneLine_texts (ts : List Ty) (h : ∀ i ∈ identsInAll ts, i.OnOneLine) :
    ∀ s ∈ texts ts, OneLine s := by
  cases ts with
  | nil => exact List.forall_mem_nil _
  | cons t ts =>
    obtain ⟨hfirst, hothers⟩ := List.forall_mem_append.mp h
    exact List.forall_mem_cons.mpr ⟨oneLine_text t hfirst, oneLine_texts ts hothers⟩

theorem oneLine_fieldTexts (fs : List (Ident × Ty)) (h : ∀ i ∈ identsInFields fs, i.OnOneLine) :
    ∀ s ∈ fieldTexts fs, OneLine s := by
  cases fs with
  | nil => exact List.forall_mem_nil _
  | cons field fs =>
    obtain ⟨name, t⟩ := field
    obtain ⟨hname, hrest⟩ := List.forall_mem_cons.mp h
    obtain ⟨hty, hothers⟩ := List.forall_mem_append.mp hrest
    have hfirst : OneLine (name.text ++ ": " ++ t.text) := by
      simp +decide [hname.text, oneLine_text t hty]
    exact List.forall_mem_cons.mpr ⟨hfirst, oneLine_fieldTexts fs hothers⟩

end

theorem mem_identsInFields {fs : List (Ident × Ty)} {i : Ident} (h : i ∈ fs.map Prod.fst) :
    i ∈ identsInFields fs := by
  induction fs with
  | nil => cases h
  | cons field fs ih =>
    obtain ⟨name, t⟩ := field
    rcases List.mem_cons.mp h with rfl | h
    · exact List.mem_cons_self
    · exact List.mem_cons_of_mem _ (List.mem_append_right _ (ih h))

end Ty

theorem oneLine_signature {s : Signature} (h : ∀ i ∈ s.toTy.identsIn, i.OnOneLine) :
    OneLine s.text := s.toTy.oneLine_text h

/-! ## Values -/

namespace Value

mutual

/-- All identifiers inside a value. -/
def identsIn : Value → List Ident
  | .tuple values => identsInAll values
  | .struct fields values => Ty.identsInFields fields ++ identsInAll values
  | .array elem values => elem.identsIn ++ identsInAll values
  | .spread inner => inner.identsIn
  | .named name fallback => name :: fallback.identsIn
  | _ => []

def identsInAll : List Value → List Ident
  | [] => []
  | v :: vs => v.identsIn ++ identsInAll vs

end

mutual

theorem oneLine_text (v : Value) (h : ∀ i ∈ v.identsIn, i.OnOneLine) : OneLine v.text := by
  cases v with
  | tuple values =>
    have hvalues := OneLine.intercalate ", " (by decide) (oneLine_texts values h)
    simp +decide [text, hvalues]
  | struct fields values =>
    obtain ⟨hfields, hvalues⟩ := List.forall_mem_append.mp h
    have hnames : ∀ i ∈ fields.map Prod.fst, i.OnOneLine :=
      fun i hi => hfields i (Ty.mem_identsInFields hi)
    have hparts := OneLine.intercalate ", " (by decide)
      (oneLine_fieldTexts (fields.map Prod.fst) values hnames hvalues)
    simp +decide [text, hparts]
  | array elem values =>
    obtain ⟨helem, hvalues⟩ := List.forall_mem_append.mp h
    have helem := elem.oneLine_text helem
    have hvalues := OneLine.intercalate ", " (by decide) (oneLine_texts values hvalues)
    simp +decide [text, helem, hvalues]
  | spread inner =>
    have hinner := oneLine_text inner h
    simp +decide [text, hinner]
  | named name fallback =>
    obtain ⟨hname, hfallback⟩ := List.forall_mem_cons.mp h
    have hname := hname.text
    have hfallback := oneLine_text fallback hfallback
    unfold text
    split
    · simp +decide [hname]
    · simp +decide [hname, hfallback]
  | bool b => cases b <;> decide
  | nil => decide
  | int | int8 | int16 | string | char => simp +decide [text]
  | float32 | float64 | complex64 | complex128 => simp +decide [text, floatText, doubleText]

theorem oneLine_texts (vs : List Value) (h : ∀ i ∈ identsInAll vs, i.OnOneLine) :
    ∀ s ∈ texts vs, OneLine s := by
  cases vs with
  | nil => exact List.forall_mem_nil _
  | cons v vs =>
    obtain ⟨hfirst, hothers⟩ := List.forall_mem_append.mp h
    exact List.forall_mem_cons.mpr ⟨oneLine_text v hfirst, oneLine_texts vs hothers⟩

theorem oneLine_fieldTexts (names : List Ident) (vs : List Value)
    (hnames : ∀ i ∈ names, i.OnOneLine) (h : ∀ i ∈ identsInAll vs, i.OnOneLine) :
    ∀ s ∈ fieldTexts names vs, OneLine s := by
  cases vs with
  | nil => cases names <;> exact List.forall_mem_nil _
  | cons v vs =>
    cases names with
    | nil => exact List.forall_mem_nil _
    | cons name names =>
      obtain ⟨hname, hnames⟩ := List.forall_mem_cons.mp hnames
      obtain ⟨hv, hothers⟩ := List.forall_mem_append.mp h
      have hfirst : OneLine (name.text ++ ": " ++ v.text) := by
        simp +decide [hname.text, oneLine_text v hv]
      exact List.forall_mem_cons.mpr ⟨hfirst, oneLine_fieldTexts names vs hnames hothers⟩

end

end Value

/-! ## Instructions -/

namespace Instr

mutual

/-- All identifiers inside an instruction. -/
def identsIn : Instr → List Ident
  | .value v _ => v.identsIn
  | .wrapped ty inner _ => ty.identsIn ++ inner.identsIn
  | .iterable ty members _ => ty.identsIn ++ identsInAll members
  | .set decl ty expr _ => decl.name :: (ty.identsIn ++ expr.identsIn)
  | .typeAlias decl ty _ => decl.name :: ty.identsIn
  | .mov a b _ => a.identsIn ++ b.identsIn
  | .unary _ a _ => a.identsIn
  | .binary _ a b _ => a.identsIn ++ b.identsIn
  | .collection _ a b _ => a.identsIn ++ b.identsIn
  | .indexGet a _ b _ => a.identsIn ++ b.identsIn
  | .indexSet a b c _ => a.identsIn ++ (b.identsIn ++ c.identsIn)
  | .length a _ => a.identsIn
  | .attrGet name _ a _ => name :: a.identsIn
  | .attrSet _ name a b _ => name :: (a.identsIn ++ b.identsIn)
  | .cast ty a _ => ty.identsIn ++ a.identsIn
  | .call a b _ => a.identsIn ++ b.identsIn
  | .ternary a b c _ => a.identsIn ++ (b.identsIn ++ c.identsIn)
  | .compareJump a b target _ => target :: (a.identsIn ++ b.identsIn)
  | .jump target _ => [target]
  | .label name _ => [name]
  | .lambda signature body _ => signature.toTy.identsIn ++ identsInAll body
  | .block body _ => identsInAll body
  | .ret a _ => a.identsIn
  | .use _ package imports _ => package :: imports

def identsInAll : List Instr → List Ident
  | [] => []
  | i :: is => i.identsIn ++ identsInAll is

end

mutual

theorem oneLine_text (i : Instr) (h : ∀ n ∈ i.identsIn, n.OnOneLine) : OneLine i.text := by
  cases i with
  | value v span =>
    unfold text
    split
    · exact oneLine_register _
    · exact v.oneLine_text h
  | wrapped ty inner span =>
    obtain ⟨hty, hinner⟩ := List.forall_mem_append.mp h
    simp +decide [text, ty.oneLine_text hty, oneLine_text inner hinner]
  | iterable ty members span =>
    obtain ⟨hty, hmembers⟩ := List.forall_mem_append.mp h
    have hmembers := OneLine.intercalate ", " (by decide) (oneLine_texts members hmembers)
    simp +decide [text, ty.oneLine_text hty, hmembers]
  | set decl ty expr span =>
    obtain ⟨hname, hrest⟩ := List.forall_mem_cons.mp h
    obtain ⟨hty, hexpr⟩ := List.forall_mem_append.mp hrest
    simp +decide [text, oneLine_declaration hname, ty.oneLine_text hty, oneLine_text expr hexpr]
  | typeAlias decl ty span =>
    obtain ⟨hname, hty⟩ := List.forall_mem_cons.mp h
    simp +decide [text, oneLine_declaration hname, ty.oneLine_text hty]
  | mov a b span | binary op a b span | call a b span =>
    obtain ⟨ha, hb⟩ := List.forall_mem_append.mp h
    simp +decide [text, oneLine_text a ha, oneLine_text b hb]
  | unary op a span | length a span | ret a span =>
    simp +decide [text, oneLine_text a h]
  | collection op a b span =>
    obtain ⟨ha, hb⟩ := List.forall_mem_append.mp h
    cases op <;> simp +decide [text, oneLine_text a ha, oneLine_text b hb]
  | indexGet a nilSafe b span =>
    obtain ⟨ha, hb⟩ := List.forall_mem_append.mp h
    simp +decide [text, oneLine_text a ha, oneLine_text b hb]
  | indexSet a b c span | ternary a b c span =>
    obtain ⟨ha, hrest⟩ := List.forall_mem_append.mp h
    obtain ⟨hb, hc⟩ := List.forall_mem_append.mp hrest
    simp +decide [text, oneLine_text a ha, oneLine_text b hb, oneLine_text c hc]
  | attrGet name nilSafe a span =>
    obtain ⟨hname, ha⟩ := List.forall_mem_cons.mp h
    simp +decide [text, hname.text, oneLine_text a ha]
  | attrSet nilSafe name a b span =>
    obtain ⟨hname, hrest⟩ := List.forall_mem_cons.mp h
    obtain ⟨ha, hb⟩ := List.forall_mem_append.mp hrest
    simp +decide [text, hname.text, oneLine_text a ha, oneLine_text b hb]
  | cast ty a span =>
    obtain ⟨hty, ha⟩ := List.forall_mem_append.mp h
    simp +decide [text, ty.oneLine_text hty, oneLine_text a ha]
  | compareJump a b target span =>
    obtain ⟨htarget, hrest⟩ := List.forall_mem_cons.mp h
    obtain ⟨ha, hb⟩ := List.forall_mem_append.mp hrest
    simp +decide [text, htarget.text, oneLine_text a ha, oneLine_text b hb]
  | jump name span | label name span =>
    simp +decide [text, (h name List.mem_cons_self).text]
  | lambda signature body span =>
    obtain ⟨hsignature, -⟩ := List.forall_mem_append.mp h
    simp +decide [text, oneLine_signature hsignature]
  | block body span => simp +decide [text]
  | use mode package imports span =>
    obtain ⟨hpackage, himports⟩ := List.forall_mem_cons.mp h
    have himports : OneLine (String.join (imports.map fun i => " " ++ i.text)) := by
      refine OneLine.join (List.forall_mem_map.mpr fun i hi => ?_)
      simp +decide [(himports i hi).text]
    simp +decide [text, hpackage.text, himports]

theorem oneLine_texts (is : List Instr) (h : ∀ n ∈ identsInAll is, n.OnOneLine) :
    ∀ s ∈ texts is, OneLine s := by
  cases is with
  | nil => exact List.forall_mem_nil _
  | cons i is =>
    obtain ⟨hfirst, hothers⟩ := List.forall_mem_append.mp h
    exact List.forall_mem_cons.mpr ⟨oneLine_text i hfirst, oneLine_texts is hothers⟩

end

end Instr

end BytecodeCompiler

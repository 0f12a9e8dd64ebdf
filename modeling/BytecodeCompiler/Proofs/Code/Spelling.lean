import BytecodeCompiler.Proofs.Code.Reading

-- Which bytes a type can be read from. A decoder accepts only bytes that the encoder would have
-- written for the value, except at the flag of a lambda type: the reader takes every byte that is
-- not zero for a set flag, and the writer writes a one. `types_written_and_read` says both ways.

namespace BytecodeCompiler

/-! ## Texts and numbers that were read -/

theorem leBytes_leNat (bs : List UInt8) : leBytes bs.length (leNat bs) = bs := by
  induction bs with
  | nil => rfl
  | cons b bs ih =>
    have hlow : UInt8.ofNat (b.toNat + 256 * leNat bs) = b := by
      apply UInt8.toNat_inj.mp
      have := b.toNat_lt
      rw [UInt8.toNat_ofNat']
      omega
    have hhigh : (b.toNat + 256 * leNat bs) / 256 = leNat bs := by
      have := b.toNat_lt
      omega
    rw [List.length_cons, leNat, leBytes, hlow, hhigh, ih]

theorem leNat_lt (bs : List UInt8) : leNat bs < Nat.pow 256 bs.length := by
  induction bs with
  | nil => exact Nat.one_pos
  | cons b bs ih =>
    have := b.toNat_lt
    have hpow : Nat.pow 256 (b :: bs).length = Nat.pow 256 bs.length * 256 := rfl
    rw [hpow, leNat]
    omega

/-- Bytes that stand for a text are the bytes of the text. -/
theorem textBytes_of_ofTextBytes {bs : List UInt8} {s : String} (h : ofTextBytes? bs = some s) :
    textBytes s = bs := by
  unfold ofTextBytes? String.fromUTF8? at h
  split at h
  · cases h
    rfl
  · cases h

theorem byte_of_ofByte {b : UInt8} {c : TypeCode} (h : TypeCode.ofByte? b = some c) :
    c.byte = b := by
  simpa using List.find?_some h

theorem tag_of_ofTag {b : UInt8} {m : IdentMode} (h : IdentMode.ofTag? b = some m) :
    m.tag = b := by
  simpa using List.find?_some h

/-! ## What a decoder accepts -/

namespace Decoder

/-- Whenever the decoder gives a value, the bytes that it went over are related to the value. -/
def ReadsOnly {α : Type} (d : Decoder α) (P : List UInt8 → α → Prop) : Prop :=
  ∀ code pos a stop, d.readAt code pos = .ok a stop →
    ∃ bs, bs <+: code.toList.drop pos ∧ stop = pos + bs.length ∧ P bs a

section Sequences

variable {α β : Type} {d : Decoder α} {P Q : List UInt8 → α → Prop} {R : List UInt8 → β → Prop}

theorem ReadsOnly.bind {f : α → Decoder β} (hd : ReadsOnly d P)
    (hf : ∀ bs a, P bs a → ReadsOnly (f a) fun cs b => R (bs ++ cs) b) :
    ReadsOnly (d >>= f) R := by
  intro code pos b stop h
  obtain ⟨a, mid, ha, hb⟩ := bind_eq_ok h
  obtain ⟨bs, ⟨back, hback⟩, rfl, hP⟩ := hd code pos a mid ha
  obtain ⟨cs, hcs, rfl, hR⟩ := hf bs a hP code _ b stop hb
  refine ⟨bs ++ cs, ?_, by rw [List.length_append, Nat.add_assoc], hR⟩
  have hrest : code.toList.drop (pos + bs.length) = back := by
    rw [← List.drop_drop, ← hback, List.drop_left]
  rw [hrest] at hcs
  rw [← hback]
  exact (List.prefix_append_right_inj bs).mpr hcs

theorem ReadsOnly.weaken (hd : ReadsOnly d P) (h : ∀ bs a, P bs a → Q bs a) :
    ReadsOnly d Q := by
  intro code pos a stop ha
  obtain ⟨bs, hbs, hstop, hP⟩ := hd code pos a stop ha
  exact ⟨bs, hbs, hstop, h bs a hP⟩

theorem readsOnly_pure {a : α} (h : P [] a) : ReadsOnly (pure a) P := by
  intro code pos b stop hb
  cases hb
  exact ⟨[], List.nil_prefix, rfl, h⟩

theorem ReadsOnly.map (f : α → β) (hd : ReadsOnly d fun bs a => R bs (f a)) :
    ReadsOnly (do return f (← d)) R :=
  hd.bind fun bs a h => readsOnly_pure (by rwa [List.append_nil])

/-- A look at the position costs nothing. -/
theorem ReadsOnly.positioned {f : Nat → Decoder α} (h : ∀ pos, ReadsOnly (f pos) P) :
    ReadsOnly (position >>= f) P := fun code pos a stop ha => h pos code pos a stop ha

/-- A complaint accepts nothing. -/
theorem readsOnly_throw (fault : Fault) : ReadsOnly (throw fault) P := by
  intro code pos a stop ha
  cases ha

theorem readsOnly_invalid (detail : String) : ReadsOnly (invalid detail) P :=
  ReadsOnly.positioned fun _ => readsOnly_throw _

end Sequences

/-! ## Bytes, codes and identifiers -/

theorem readsOnly_take (n : Nat) : ReadsOnly (take n) fun bs a => bs = a ∧ a.length = n := by
  intro code pos a stop h
  by_cases hn : pos + n ≤ code.size
  · rw [readAt_take_of_le hn] at h
    cases h
    have hlen : (code.extract pos (pos + n)).toList.length = n := by simp; omega
    refine ⟨(code.extract pos (pos + n)).toList, ?_, by rw [hlen], rfl, hlen⟩
    rw [Array.toList_extract, List.extract_eq_take_drop]
    exact List.take_prefix _ _
  · rw [readAt_take_of_lt (by omega)] at h
    cases h

theorem readsOnly_nat (width : Nat) :
    ReadsOnly (nat width) fun bs n => bs = leBytes width n ∧ n < Nat.pow 256 width := by
  refine ReadsOnly.map leNat ((readsOnly_take width).weaken ?_)
  rintro bs a ⟨rfl, rfl⟩
  exact ⟨(leBytes_leNat bs).symm, leNat_lt bs⟩

theorem readsOnly_byte : ReadsOnly byte fun bs b => bs = [b] := by
  refine ReadsOnly.map UInt8.ofNat ((readsOnly_nat 1).weaken ?_)
  rintro bs n ⟨rfl, -⟩
  rfl

theorem readsOnly_short : ReadsOnly short fun bs n => bs = leBytes 2 n.toNat := by
  refine ReadsOnly.map UInt16.ofNat ((readsOnly_nat 2).weaken ?_)
  rintro bs n ⟨rfl, hn⟩
  rw [UInt16.toNat_ofNat_of_lt' hn]

theorem readsOnly_bool : ReadsOnly bool fun bs b => ∃ flag, bs = [flag] ∧ b = (flag != 0) := by
  refine ReadsOnly.map (· != 0) (readsOnly_byte.weaken ?_)
  rintro bs flag rfl
  exact ⟨flag, rfl, rfl⟩

theorem readsOnly_typeCode : ReadsOnly typeCode fun bs c => bs = [c.byte] := by
  refine ReadsOnly.positioned fun pos => readsOnly_byte.bind ?_
  rintro bs b rfl
  split
  · rename_i c hc
    exact readsOnly_pure (by rw [byte_of_ofByte hc]; rfl)
  · exact readsOnly_throw _

theorem readsOnly_ident : ReadsOnly ident fun bs i => bs = i.bytes ∧ i.encodable = true := by
  refine readsOnly_byte.bind ?_
  rintro bs b rfl
  split
  · exact readsOnly_invalid _
  · rename_i hb
    rw [← tag_of_ofTag hb]
    refine ReadsOnly.map Ident.byte (readsOnly_byte.weaken ?_)
    rintro bs n rfl
    exact ⟨rfl, rfl⟩
  · rename_i hb
    rw [← tag_of_ofTag hb]
    refine ReadsOnly.map Ident.short (readsOnly_short.weaken ?_)
    rintro bs n rfl
    exact ⟨rfl, rfl⟩
  · rename_i hb
    rw [← tag_of_ofTag hb]
    refine readsOnly_byte.bind ?_
    rintro bs len rfl
    refine (readsOnly_take len.toNat).bind ?_
    rintro bs text ⟨rfl, hlen⟩
    split
    · rename_i s hs
      have htext : textBytes s = bs := textBytes_of_ofTextBytes hs
      have hsize : s.utf8ByteSize = len.toNat := by rw [← length_textBytes, htext, hlen]
      have hlt := len.toNat_lt
      refine readsOnly_pure ⟨?_, decide_eq_true ?_⟩
      · simp [Ident.bytes, htext, hsize]
      · rw [hsize, Ident.maxName]
        omega
    · exact readsOnly_invalid _

theorem readsOnly_int8 : ReadsOnly int8 fun bs n => bs = [n.toUInt8] := by
  refine ReadsOnly.map UInt8.toInt8 (readsOnly_byte.weaken ?_)
  rintro bs b rfl
  rw [UInt8.toUInt8_toInt8]

theorem readsOnly_typeCount :
    ReadsOnly typeCount fun bs n => bs = [UInt8.ofNat n] ∧ n < 0x80 := by
  refine readsOnly_int8.bind ?_
  rintro bs n rfl
  split
  · exact readsOnly_invalid _
  · rename_i hneg
    have hlt : n.toInt < 0x80 := n.toInt_lt
    refine readsOnly_pure ⟨?_, by omega⟩
    have hn : n = Int8.ofNat n.toInt.toNat := by
      apply Int8.toInt_inj.mp
      rw [Int8.toInt_ofNat_of_lt (by omega)]
      omega
    rw [List.append_nil, ← Int8.toUInt8_ofNat', ← hn]

end Decoder

/-! ## Flags

The bytes that are read and the bytes that are written for them agree but for the flags. -/

/-- A byte as it is written again: a flag that is set becomes a one, all else stays. -/
def rewritten (isFlag : Bool) (b : UInt8) : UInt8 := if isFlag then boolByte (b != 0) else b

namespace Ty

/-- No byte of an identifier is a flag. -/
def identFlags (name : Ident) : List Bool := name.bytes.map fun _ => false

mutual

/-- Which bytes of the type in the code are flags: the last one of each lambda type. -/
def flags : Ty → List Bool
  | .array elem => false :: elem.flags
  | .tuple members => false :: false :: flagsAll members
  | .union members => false :: false :: flagsAll members
  | .struct fields => false :: false :: flagsFields fields
  | .lambda params result _ => false :: (result.flags ++ false :: (flagsFields params ++ [true]))
  | .ref name => false :: identFlags name
  | .objRef name => false :: identFlags name
  | .ident name => false :: identFlags name
  | _ => [false]

def flagsAll : List Ty → List Bool
  | [] => []
  | t :: ts => t.flags ++ flagsAll ts

def flagsFields : List (Ident × Ty) → List Bool
  | [] => []
  | (name, t) :: fs => identFlags name ++ (t.flags ++ flagsFields fs)

end

end Ty

/-- The bytes are a spelling of what is written: one byte for each, and the same but for flags. -/
structure Spells (flags : List Bool) (bs written : List UInt8) : Prop where
  length_eq : bs.length = flags.length
  written_eq : written = List.zipWith rewritten flags bs

namespace Spells

variable {fs gs : List Bool} {as bs cs ds : List UInt8}

theorem nil : Spells [] [] [] := ⟨rfl, rfl⟩

theorem append (h : Spells fs as bs) (h' : Spells gs cs ds) :
    Spells (fs ++ gs) (as ++ cs) (bs ++ ds) := by
  refine ⟨by simp [h.length_eq, h'.length_eq], ?_⟩
  rw [List.zipWith_append h.length_eq.symm, h.written_eq, h'.written_eq]

/-- A byte that is no flag is written as it was read. -/
theorem cons (b : UInt8) (h : Spells fs as bs) : Spells (false :: fs) ([b] ++ as) (b :: bs) :=
  ⟨congrArg Nat.succ h.length_eq, congrArg (b :: ·) h.written_eq⟩

theorem flag (b : UInt8) : Spells [true] [b] [boolByte (b != 0)] := ⟨rfl, rfl⟩

theorem ident (name : Ident) : Spells (Ty.identFlags name) name.bytes name.bytes := by
  unfold Ty.identFlags
  induction name.bytes with
  | nil => exact nil
  | cons b bs ih => exact ih.cons b

end Spells

/-! ## Types -/

namespace Decoder

/-- What the reading of a type goes over. -/
def SpellsTy (bs : List UInt8) (t : Ty) : Prop :=
  t.encodable = true ∧ Spells t.flags bs t.bytes

/-- What the reading of a name with its type goes over. -/
def SpellsField (bs : List UInt8) (f : Ident × Ty) : Prop :=
  f.1.encodable = true ∧ f.2.encodable = true ∧
    Spells (Ty.identFlags f.1 ++ f.2.flags) bs (f.1.bytes ++ f.2.bytes)

theorem readsOnly_field {d : Decoder Ty} (hd : ReadsOnly d SpellsTy) :
    ReadsOnly (field d) SpellsField := by
  refine readsOnly_ident.bind ?_
  rintro bs name ⟨rfl, hname⟩
  refine ReadsOnly.map (name, ·) (hd.weaken ?_)
  rintro bs t ⟨ht, hbs⟩
  exact ⟨hname, ht, (Spells.ident name).append hbs⟩

theorem readsOnly_tys {d : Decoder Ty} (hd : ReadsOnly d SpellsTy) (count : Nat) :
    ReadsOnly (many d count) fun bs ts => ts.length = count ∧ Ty.encodableAll ts = true ∧
      Spells (Ty.flagsAll ts) bs (Ty.bytesAll ts) := by
  induction count with
  | zero => exact readsOnly_pure ⟨rfl, by simp only [Ty.encodableAll], by
      simpa only [Ty.flagsAll, Ty.bytesAll] using Spells.nil⟩
  | succ count ih =>
    refine hd.bind ?_
    rintro bs t ⟨ht, hbs⟩
    refine ReadsOnly.map (t :: ·) (ih.weaken ?_)
    rintro cs ts ⟨rfl, hts, hcs⟩
    refine ⟨rfl, ?_, ?_⟩
    · simp only [Ty.encodableAll, ht, hts, Bool.and_self]
    · simpa only [Ty.flagsAll, Ty.bytesAll] using hbs.append hcs

theorem readsOnly_fields {d : Decoder Ty} (hd : ReadsOnly d SpellsTy) (count : Nat) :
    ReadsOnly (many (field d) count) fun bs fs => fs.length = count ∧
      Ty.encodableFields fs = true ∧ Spells (Ty.flagsFields fs) bs (Ty.bytesFields fs) := by
  induction count with
  | zero => exact readsOnly_pure ⟨rfl, by simp only [Ty.encodableFields], by
      simpa only [Ty.flagsFields, Ty.bytesFields] using Spells.nil⟩
  | succ count ih =>
    refine (readsOnly_field hd).bind ?_
    rintro bs ⟨name, t⟩ ⟨hname, ht, hbs⟩
    refine ReadsOnly.map ((name, t) :: ·) (ih.weaken ?_)
    rintro cs fs ⟨rfl, hfs, hcs⟩
    refine ⟨rfl, ?_, ?_⟩
    · simp only [Ty.encodableFields, hname, ht, hfs, Bool.and_self]
    · simpa only [Ty.flagsFields, Ty.bytesFields, List.append_assoc] using hbs.append hcs

/-- A type is read only from a spelling of it, however deep the reading may go. -/
theorem readsOnly_tyWithin (depth : Nat) : ReadsOnly (tyWithin depth) SpellsTy := by
  induction depth with
  | zero => exact ReadsOnly.positioned fun _ => readsOnly_throw _
  | succ depth ih =>
    refine readsOnly_typeCode.bind ?_
    rintro bs code rfl
    cases code with
    | array =>
      refine ReadsOnly.map Ty.array (ih.weaken ?_)
      rintro bs t ⟨ht, hbs⟩
      exact ⟨by simpa only [Ty.encodable] using ht, by
        simpa only [Ty.flags, Ty.bytes] using hbs.cons _⟩
    | tuple =>
      refine readsOnly_typeCount.bind ?_
      rintro bs n ⟨rfl, hn⟩
      refine ReadsOnly.map Ty.tuple ((readsOnly_tys ih n).weaken ?_)
      rintro bs ts ⟨rfl, hts, hbs⟩
      exact ⟨by simp only [Ty.encodable, hn, hts, decide_true, Bool.and_self], by
        simpa only [Ty.flags, Ty.bytes] using (hbs.cons _).cons _⟩
    | union =>
      refine readsOnly_typeCount.bind ?_
      rintro bs n ⟨rfl, hn⟩
      refine ReadsOnly.map Ty.union ((readsOnly_tys ih n).weaken ?_)
      rintro bs ts ⟨rfl, hts, hbs⟩
      exact ⟨by simp only [Ty.encodable, hn, hts, decide_true, Bool.and_self], by
        simpa only [Ty.flags, Ty.bytes] using (hbs.cons _).cons _⟩
    | struct =>
      refine readsOnly_typeCount.bind ?_
      rintro bs n ⟨rfl, hn⟩
      refine ReadsOnly.map Ty.struct ((readsOnly_fields ih n).weaken ?_)
      rintro bs fs ⟨rfl, hfs, hbs⟩
      exact ⟨by simp only [Ty.encodable, hn, hfs, decide_true, Bool.and_self], by
        simpa only [Ty.flags, Ty.bytes] using (hbs.cons _).cons _⟩
    | lambda =>
      refine ih.bind ?_
      rintro bs result ⟨hresult, hbs⟩
      refine readsOnly_typeCount.bind ?_
      rintro cs n ⟨rfl, hn⟩
      refine (readsOnly_fields ih n).bind ?_
      rintro cs params ⟨rfl, hparams, hcs⟩
      refine ReadsOnly.map (Ty.lambda params result) (readsOnly_bool.weaken ?_)
      rintro ds variadic ⟨flag, rfl, rfl⟩
      refine ⟨?_, ?_⟩
      · simp only [Ty.encodable, hresult, hn, hparams, decide_true, Bool.and_self]
      · simpa only [Ty.flags, Ty.bytes] using
          (hbs.append ((hcs.append (Spells.flag flag)).cons _)).cons _
    | ref =>
      refine ReadsOnly.map Ty.ref (readsOnly_ident.weaken ?_)
      rintro bs name ⟨rfl, hname⟩
      exact ⟨by simpa only [Ty.encodable] using hname, by
        simpa only [Ty.flags, Ty.bytes] using (Spells.ident name).cons _⟩
    | objRef =>
      refine ReadsOnly.map Ty.objRef (readsOnly_ident.weaken ?_)
      rintro bs name ⟨rfl, hname⟩
      exact ⟨by simpa only [Ty.encodable] using hname, by
        simpa only [Ty.flags, Ty.bytes] using (Spells.ident name).cons _⟩
    | ident =>
      refine ReadsOnly.map Ty.ident (readsOnly_ident.weaken ?_)
      rintro bs name ⟨rfl, hname⟩
      exact ⟨by simpa only [Ty.encodable] using hname, by
        simpa only [Ty.flags, Ty.bytes] using (Spells.ident name).cons _⟩
    | any | nil | bool | int | int8 | int16 | float32 | float64 | complex64 | complex128 | string
    | char =>
      refine readsOnly_pure ⟨by simp only [Ty.encodable], ?_⟩
      simpa only [Ty.flags, Ty.bytes, Ty.code] using Spells.nil.cons _

theorem readsOnly_ty : ReadsOnly ty SpellsTy :=
  fun code pos t stop h => readsOnly_tyWithin (code.size - pos) code pos t stop h

end Decoder

/-- The bytes between two positions, when they stand there. -/
theorem Code.extract_of_prefix {code : Code} {pos : Nat} {bs : List UInt8}
    (h : bs <+: code.toList.drop pos) : (code.extract pos (pos + bs.length)).toList = bs := by
  rw [Array.toList_extract, List.extract_eq_take_drop, Nat.add_sub_cancel_left,
    ← List.prefix_iff_eq_take.mp h]

/-- A type that was written is read back from where it was written, whatever follows, up to where
the writing ended. A type that was read can be written to any buffer, as many bytes as were read,
and these bytes again but for the flags of lambda types: one that is not zero becomes a one. -/
theorem types_written_and_read :
    (∀ (t : Ty) (code written : Code) (tail : List UInt8),
      Encoder.ty t code = .ok () written →
      Decoder.ty.readAt (written ++ tail) code.size = .ok t written.size) ∧
    (∀ (code : Code) (pos stop : Nat) (t : Ty), Decoder.ty.readAt code pos = .ok t stop →
      ∀ buffer : Code, ∃ bs : List UInt8,
        Encoder.ty t buffer = .ok () (buffer ++ bs) ∧ pos + bs.length = stop ∧
        bs = List.zipWith rewritten t.flags (code.extract pos stop).toList) := by
  constructor
  · intro t code written tail h
    obtain ⟨ht, rfl⟩ := (Encoder.writes_ty t).of_ok h
    rw [Code.size_append]
    exact Decoder.reads_ty t ht _ _ (Code.hasAt_append code t.bytes tail)
  · intro code pos stop t h buffer
    obtain ⟨bs, hbs, rfl, ht, hspells⟩ := Decoder.readsOnly_ty code pos t stop h
    refine ⟨t.bytes, (Encoder.writes_ty t).ok ht buffer, ?_, ?_⟩
    · rw [hspells.written_eq, List.length_zipWith, hspells.length_eq, Nat.min_self]
    · rw [Code.extract_of_prefix hbs]
      exact hspells.written_eq

/-- A variadic function that takes a variadic function, with flags that are no ones. -/
theorem types_written_and_read_variadic :
    ∃ t : Ty, t.flags.count true = 2 ∧
    Decoder.ty.readAt #[3, 16, 1, 1, 2, 1, 102, 16, 0, 0, 9, 255] 1 = .ok t 12 ∧
    Encoder.ty t #[3] = .ok () #[3, 16, 1, 1, 2, 1, 102, 16, 0, 0, 1, 1] ∧
    (∃ bs : List UInt8, Encoder.ty t #[7] = .ok () (#[(7 : UInt8)] ++ bs) ∧ 1 + bs.length = 12 ∧
      bs = List.zipWith rewritten t.flags [16, 1, 1, 2, 1, 102, 16, 0, 0, 9, 255]) ∧
    Decoder.ty.readAt #[3, 16, 1, 1, 2, 1, 102, 16, 0, 0, 1, 1, 16] 1 = .ok t 12 := by
  have hread : Decoder.ty.readAt #[3, 16, 1, 1, 2, 1, 102, 16, 0, 0, 9, 255] 1 =
      .ok (.lambda [(.name "f", .lambda [] .any true)] .nil true) 12 := rfl
  have hwritten : Encoder.ty (.lambda [(.name "f", .lambda [] .any true)] .nil true) #[3] =
      .ok () #[3, 16, 1, 1, 2, 1, 102, 16, 0, 0, 1, 1] := rfl
  exact ⟨.lambda [(.name "f", .lambda [] .any true)] .nil true, by decide, hread, hwritten,
    types_written_and_read.2 _ 1 12 _ hread #[7], types_written_and_read.1 _ #[3] _ [16] hwritten⟩

end BytecodeCompiler

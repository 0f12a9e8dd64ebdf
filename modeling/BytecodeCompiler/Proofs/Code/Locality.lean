import BytecodeCompiler.Proofs.Code.Spelling

-- Reading is local. What a decoder gives depends on the bytes that it goes over and on nothing
-- else, so it gives the same wherever these bytes stand. If the code ends before the last of them,
-- the decoder does not take what is there for something else: it says that the code has ended.

namespace BytecodeCompiler

namespace Code

/-- The code ends inside the bytes: some of them stand at the offset, and then nothing more. -/
def EndsInside (code : Code) (pos : Nat) (bs : List UInt8) : Prop :=
  ∃ front, front <+: bs ∧ front.length < bs.length ∧ code.HasAt pos front ∧
    code.size = pos + front.length

variable {code : Code} {pos : Nat} {bs cs : List UInt8}

/-- A code that ends inside bytes in a row ends inside the first ones or behind them inside the
others. -/
theorem EndsInside.append (h : code.EndsInside pos (bs ++ cs)) :
    code.EndsInside pos bs ∨
      code.HasAt pos bs ∧ code.EndsInside (pos + bs.length) cs := by
  obtain ⟨front, hprefix, hlt, hat, hsize⟩ := h
  by_cases hshort : front.length < bs.length
  · refine Or.inl ⟨front, ?_, hshort, hat, hsize⟩
    exact List.prefix_of_prefix_length_le hprefix (List.prefix_append bs cs) (Nat.le_of_lt hshort)
  · obtain ⟨others, rfl⟩ : bs <+: front :=
      List.prefix_of_prefix_length_le (List.prefix_append bs cs) hprefix (Nat.le_of_not_lt hshort)
    rw [List.length_append, List.length_append] at hlt
    refine Or.inr ⟨hat.left, others, ?_, by omega, hat.right, ?_⟩
    · exact (List.prefix_append_right_inj bs).mp hprefix
    · rw [hsize, List.length_append, Nat.add_assoc]

theorem not_endsInside_nil : ¬ code.EndsInside pos [] := by
  rintro ⟨front, -, hlt, -⟩
  exact Nat.not_lt_zero _ hlt

theorem EndsInside.size_lt (h : code.EndsInside pos bs) : code.size < pos + bs.length := by
  obtain ⟨front, -, hlt, -, hsize⟩ := h
  omega

/-- If the code ends inside bytes and is not at its end yet, the first byte is there. -/
theorem EndsInside.head (h : code.EndsInside pos bs) (hpos : pos < code.size) :
    code[pos]? = bs[0]? := by
  obtain ⟨front, ⟨back, rfl⟩, -, hat, hsize⟩ := h
  cases front with
  | nil => simp at hsize; omega
  | cons b front => rw [hat.head]; rfl

theorem hasAt_of_prefix (h : bs <+: code.toList.drop pos) (hpos : pos ≤ code.size) :
    code.HasAt pos bs := by
  obtain ⟨back, hback⟩ := h
  refine ⟨code.toList.take pos, back, ?_, by simp [hpos]⟩
  rw [hback, List.take_append_drop]

/-- Bytes that are there one by one stand at the offset. -/
theorem hasAt_of_getElem? (hbs : 0 < bs.length)
    (h : ∀ i < bs.length, code[pos + i]? = bs[i]?) : code.HasAt pos bs := by
  have hpos : pos < code.size := by
    have hfirst := h 0 hbs
    rw [List.getElem?_eq_getElem hbs] at hfirst
    exact (Array.getElem?_eq_some_iff.mp hfirst).1
  refine hasAt_of_prefix (List.prefix_iff_getElem?.mpr fun i hi => ?_) (Nat.le_of_lt hpos)
  rw [List.getElem?_drop, Array.getElem?_toList, h i hi, List.getElem?_eq_getElem hi]

/-- A code that is cut off inside bytes ends inside them. -/
theorem HasAt.endsInside (h : code.HasAt pos bs) {j : Nat} (hj : j < bs.length) :
    EndsInside (code.extract 0 (pos + j)) pos bs := by
  have hend := h.end_le
  obtain ⟨front, back, hcode, rfl⟩ := h
  have hlength : (bs.take j).length = j := by simp; omega
  refine ⟨bs.take j, List.take_prefix j bs, by omega, ⟨front, [], ?_, rfl⟩, ?_⟩
  · rw [Array.toList_extract, hcode, List.extract_eq_take_drop]
    simp [List.take_append, Nat.le_of_lt hj, List.take_of_length_le]
  · rw [hlength, Array.size_extract]
    omega

end Code

namespace Decoder

variable {α β : Type}

/-! ## Local decoders -/

/-- The decoder says that the code has ended whenever it ends inside the bytes. -/
def NoticesEnd (d : Decoder α) (bs : List UInt8) : Prop :=
  ∀ code pos, Code.EndsInside code pos bs →
    ∃ offset stop, d.readAt code pos = .error (.unexpectedEnd offset) stop

/-- Whenever the decoder gives a value, it gives it wherever the bytes that it went over stand, and
notices when they are not all there. -/
def Local (d : Decoder α) : Prop := ReadsOnly d fun bs a => Reads d bs a ∧ NoticesEnd d bs

theorem readAt_bind_of_error {d : Decoder α} {f : α → Decoder β} {code : Code} {pos stop : Nat}
    {fault : Fault} (h : d.readAt code pos = .error fault stop) :
    (d >>= f).readAt code pos = .error fault stop := bind_of_error h

theorem NoticesEnd.bind {d : Decoder α} {f : α → Decoder β} {bs cs : List UInt8} {a : α}
    (hd : NoticesEnd d bs) (hreads : Reads d bs a) (hf : NoticesEnd (f a) cs) :
    NoticesEnd (d >>= f) (bs ++ cs) := by
  intro code pos h
  rcases h.append with hfirst | ⟨hat, hothers⟩
  · obtain ⟨offset, stop, hend⟩ := hd code pos hfirst
    exact ⟨offset, stop, readAt_bind_of_error hend⟩
  · rw [readAt_bind_of_ok (hreads code pos hat)]
    exact hf code _ hothers

theorem Local.bind {d : Decoder α} {f : α → Decoder β} (hd : Local d) (hf : ∀ a, Local (f a)) :
    Local (d >>= f) := by
  refine ReadsOnly.bind hd fun bs a ⟨hreads, hends⟩ => ?_
  refine (hf a).weaken fun cs b ⟨hreads', hends'⟩ => ?_
  exact ⟨hreads.bind hreads', hends.bind hreads hends'⟩

theorem local_pure (a : α) : Local (pure a) :=
  readsOnly_pure ⟨reads_pure a, fun _ _ h => absurd h Code.not_endsInside_nil⟩

theorem Local.map {d : Decoder α} (f : α → β) (hd : Local d) : Local (do return f (← d)) :=
  hd.bind fun a => local_pure (f a)

theorem local_invalid (detail : String) : Local (invalid detail : Decoder α) :=
  readsOnly_invalid detail

theorem local_many {d : Decoder α} (hd : Local d) (count : Nat) : Local (many d count) := by
  induction count with
  | zero => exact local_pure []
  | succ count ih => exact hd.bind fun a => ih.map (a :: ·)

/-- A local decoder does not move back. -/
theorem Local.le_stop {d : Decoder α} (hd : Local d) {code : Code} {pos stop : Nat} {a : α}
    (h : d.readAt code pos = .ok a stop) : pos ≤ stop := by
  obtain ⟨bs, -, rfl, -⟩ := hd code pos a stop h
  exact Nat.le_add_right _ _

/-- A local decoder that does not read an empty code goes over at least one byte, as it would
otherwise read nothing everywhere. -/
theorem Local.one_le {d : Decoder α} (hd : Local d) {fault : Fault} {halt : Nat}
    (hempty : d.readAt #[] 0 = .error fault halt) : ReadsOnly d fun bs _ => 1 ≤ bs.length := by
  intro code pos a stop h
  obtain ⟨bs, hbs, hstop, hreads, -⟩ := hd code pos a stop h
  refine ⟨bs, hbs, hstop, ?_⟩
  cases bs with
  | nil =>
    have hnothing := hreads #[] 0 ⟨[], [], rfl, rfl⟩
    rw [hempty] at hnothing
    cases hnothing
  | cons b bs => exact Nat.succ_le_succ (Nat.zero_le _)

/-! ## Bytes, codes and characters -/

theorem noticesEnd_take {n : Nat} {bs : List UInt8} (h : bs.length = n) :
    NoticesEnd (take n) bs := by
  intro code pos hends
  exact ⟨pos, pos, readAt_take_of_lt (h ▸ hends.size_lt)⟩

theorem local_take (n : Nat) : Local (take n) := by
  refine (readsOnly_take n).weaken ?_
  rintro bs a ⟨rfl, rfl⟩
  exact ⟨reads_take bs, noticesEnd_take rfl⟩

theorem local_nat (width : Nat) : Local (nat width) := (local_take width).map leNat

theorem local_byte : Local byte := (local_nat 1).map UInt8.ofNat

theorem local_bool : Local bool := local_byte.map (· != 0)

theorem local_int8 : Local int8 := local_byte.map UInt8.toInt8

theorem local_int16 : Local int16 := (local_nat 2).map fun n => (UInt16.ofNat n).toInt16

theorem local_short : Local short := (local_nat 2).map UInt16.ofNat

theorem local_int : Local int := (local_nat 8).map fun n => (UInt64.ofNat n).toInt64

theorem local_float32 : Local float32 := (local_nat 4).map UInt32.ofNat

theorem local_float64 : Local float64 := (local_nat 8).map UInt64.ofNat

theorem readAt_typeCode_of_le {code : Code} {pos : Nat} (h : code.size ≤ pos) :
    typeCode.readAt code pos = .error (.unexpectedEnd pos) pos := by
  have htake : (take 1).readAt code pos = .error (.unexpectedEnd pos) pos :=
    readAt_take_of_lt (by omega)
  unfold typeCode
  rw [readAt_position_bind]
  exact readAt_bind_of_error (readAt_bind_of_error (readAt_bind_of_error htake))

theorem local_typeCode : Local typeCode := by
  refine readsOnly_typeCode.weaken ?_
  rintro bs c rfl
  refine ⟨reads_typeCode c, fun code pos hends => ⟨pos, pos, readAt_typeCode_of_le ?_⟩⟩
  have hlt := hends.size_lt
  simp at hlt
  omega

theorem one_le_runeWidth (b : UInt8) : 1 ≤ runeWidth b := by
  unfold runeWidth
  repeat' split
  all_goals omega

/-- What is left of the reading of a character once its first byte is known. -/
def charFrom (first : UInt8) : Decoder Char := do
  let bytes ← take (runeWidth first)
  match (ofTextBytes? bytes).bind (·.toList.head?) with
  | some c => return c
  | none => invalid "malformed rune"

theorem readAt_char_of_some {code : Code} {pos : Nat} {first : UInt8}
    (h : code[pos]? = some first) : char.readAt code pos = (charFrom first).readAt code pos := by
  unfold char
  rw [readAt_position_bind, readAt_read_bind]
  simp only [Source.code_ofCode, h]
  rfl

theorem readAt_char_of_none {code : Code} {pos : Nat} (h : code[pos]? = none) :
    char.readAt code pos = .error (.unexpectedEnd pos) pos := by
  unfold char
  rw [readAt_position_bind, readAt_read_bind]
  simp only [Source.code_ofCode, h]
  rfl

theorem local_charFrom (first : UInt8) : Local (charFrom first) := by
  refine (local_take _).bind fun bytes => ?_
  split
  · exact local_pure _
  · exact local_invalid _

theorem readsOnly_charFrom (first : UInt8) :
    ReadsOnly (charFrom first) fun bs _ => 1 ≤ bs.length := by
  refine (readsOnly_take _).bind ?_
  rintro bs bytes ⟨rfl, hlength⟩
  have hwidth := one_le_runeWidth first
  split
  · exact readsOnly_pure (by rw [List.append_nil]; omega)
  · exact readsOnly_invalid _

/-- The look at the first byte changes nothing: the byte is among those that are read. -/
theorem local_char : Local char := by
  intro code pos c stop h
  cases hfirst : code[pos]? with
  | none =>
    rw [readAt_char_of_none hfirst] at h
    cases h
  | some first =>
    rw [readAt_char_of_some hfirst] at h
    obtain ⟨bs, hbs, rfl, hreads, hends⟩ := local_charFrom first code pos c stop h
    obtain ⟨cs, -, hlength, hone⟩ := readsOnly_charFrom first code pos c _ h
    obtain ⟨b, others, rfl⟩ : ∃ b others, bs = b :: others :=
      List.exists_cons_of_length_pos (by omega)
    obtain rfl : b = first := by
      obtain ⟨back, hback⟩ := hbs
      have hdrop : code.toList[pos]? = some b := by
        rw [← List.head?_drop, ← hback]
        rfl
      rw [Array.getElem?_toList, hfirst] at hdrop
      exact (Option.some.inj hdrop).symm
    refine ⟨b :: others, hbs, rfl, fun other start hat => ?_, fun other start hcut => ?_⟩
    · rw [readAt_char_of_some hat.head]
      exact hreads other start hat
    · by_cases hstart : start < other.size
      · rw [readAt_char_of_some (hcut.head hstart)]
        exact hends other start hcut
      · rw [readAt_char_of_none (Array.getElem?_eq_none (Nat.le_of_not_lt hstart))]
        exact ⟨start, start, rfl⟩

/-! ## Texts and identifiers -/

theorem local_textLength : Local textLength := by
  refine local_typeCode.bind fun code => ?_
  cases code with
  | int8 => exact local_int8.map Int8.toInt
  | int16 => exact local_int16.map Int16.toInt
  | int => exact local_int.map Int64.toInt
  | _ => exact local_invalid _

theorem local_text : Local text := by
  refine local_textLength.bind fun len => ?_
  split
  · exact local_invalid _
  · refine (local_take _).bind fun bytes => ?_
    split
    · exact local_pure _
    · exact local_invalid _

theorem local_ident : Local ident := by
  refine local_byte.bind fun tag => ?_
  split
  · exact local_invalid _
  · exact local_byte.map Ident.byte
  · exact local_short.map Ident.short
  · refine local_byte.bind fun len => (local_take _).bind fun bytes => ?_
    split
    · exact local_pure _
    · exact local_invalid _

theorem local_typeCount : Local typeCount := by
  refine local_int8.bind fun count => ?_
  split
  · exact local_invalid _
  · exact local_pure _

/-! ## How deep the reading goes

A decoder that may go deep is given the number of the bytes that are left. From there on it does the
same as with any larger number, so the number has no part in what is read. -/

/-- From a position on, the two decoders do the same. -/
def AgreeFrom (code : Code) (start : Nat) (d d' : Decoder α) : Prop :=
  ∀ pos, start ≤ pos → d.readAt code pos = d'.readAt code pos

variable {code : Code} {start : Nat}

theorem AgreeFrom.refl (d : Decoder α) : AgreeFrom code start d d := fun _ _ => rfl

theorem AgreeFrom.bind {d d' : Decoder α} {f f' : α → Decoder β} (hd : AgreeFrom code start d d')
    (hlocal : Local d) (hf : ∀ a, AgreeFrom code start (f a) (f' a)) :
    AgreeFrom code start (d >>= f) (d' >>= f') := by
  intro pos hpos
  have hsame := hd pos hpos
  cases hread : d.readAt code pos with
  | error fault stop =>
    rw [readAt_bind_of_error hread, readAt_bind_of_error (hsame ▸ hread)]
  | ok a stop =>
    rw [readAt_bind_of_ok hread, readAt_bind_of_ok (hsame ▸ hread)]
    exact hf a stop (Nat.le_trans hpos (hlocal.le_stop hread))

/-- What is done behind at least one byte has to agree only from the next position on. -/
theorem AgreeFrom.behind {d : Decoder α} {f f' : α → Decoder β}
    (hd : ReadsOnly d fun bs _ => 1 ≤ bs.length)
    (hf : ∀ a, AgreeFrom code (start + 1) (f a) (f' a)) :
    AgreeFrom code start (d >>= f) (d >>= f') := by
  intro pos hpos
  cases hread : d.readAt code pos with
  | error fault stop => rw [readAt_bind_of_error hread, readAt_bind_of_error hread]
  | ok a stop =>
    obtain ⟨bs, -, rfl, hone⟩ := hd code pos a stop hread
    rw [readAt_bind_of_ok hread, readAt_bind_of_ok hread]
    exact hf a _ (by omega)

theorem AgreeFrom.map {d d' : Decoder α} (f : α → β) (hd : AgreeFrom code start d d')
    (hlocal : Local d) : AgreeFrom code start (do return f (← d)) (do return f (← d')) :=
  hd.bind hlocal fun _ => .refl _

theorem agreeFrom_many {d d' : Decoder α} (hd : AgreeFrom code start d d') (hlocal : Local d)
    (count : Nat) : AgreeFrom code start (many d count) (many d' count) := by
  induction count with
  | zero => exact .refl _
  | succ count ih =>
    exact hd.bind hlocal fun a => ih.map (a :: ·) (local_many hlocal count)

/-- With the bytes that are left as the depth, a decoder is local if it is local with every depth
and any two depths that are enough do the same. -/
theorem Local.remaining {f : Nat → Decoder α} (hf : ∀ depth, Local (f depth))
    (hsame : ∀ (code : Code) (start m n : Nat), code.size ≤ start + m → code.size ≤ start + n →
      AgreeFrom code start (f m) (f n)) : Local (do f (← remaining)) := by
  intro code pos a stop h
  have hread : (f (code.size - pos)).readAt code pos = .ok a stop := h
  obtain ⟨bs, hbs, rfl, -⟩ := hf _ code pos a stop hread
  -- The same bytes are read with every depth that is enough here, and one can be enough elsewhere
  -- too.
  have hall : ∀ depth, code.size ≤ pos + depth →
      Reads (f depth) bs a ∧ NoticesEnd (f depth) bs := by
    intro depth hdepth
    have hagain : (f depth).readAt code pos = .ok a (pos + bs.length) := by
      rw [← hread]
      exact hsame code pos _ _ hdepth (by omega) pos (Nat.le_refl _)
    obtain ⟨cs, hcs, hlength, hgood⟩ := hf depth code pos a _ hagain
    have hle : bs.length = cs.length := by omega
    have heq : bs = cs :=
      (List.prefix_of_prefix_length_le hbs hcs (Nat.le_of_eq hle)).eq_of_length hle
    exact heq ▸ hgood
  have henough : ∀ (other : Code) (start : Nat), ∃ depth, code.size ≤ pos + depth ∧
      (f depth).readAt other start = (do f (← Decoder.remaining)).readAt other start := by
    intro other start
    refine ⟨code.size - pos + (other.size - start), by omega, ?_⟩
    rw [readAt_remaining_bind]
    exact hsame other start _ _ (by omega) (by omega) start (Nat.le_refl _)
  refine ⟨bs, hbs, rfl, fun other start hat => ?_, fun other start hcut => ?_⟩
  · obtain ⟨depth, hdepth, hother⟩ := henough other start
    rw [← hother]
    exact (hall depth hdepth).1 other start hat
  · obtain ⟨depth, hdepth, hother⟩ := henough other start
    rw [← hother]
    exact (hall depth hdepth).2 other start hcut

/-! ## Types -/

theorem local_field {d : Decoder Ty} (hd : Local d) : Local (field d) :=
  local_ident.bind fun name => hd.map (name, ·)

theorem local_tyWithin (depth : Nat) : Local (tyWithin depth) := by
  induction depth with
  | zero => exact ReadsOnly.positioned fun _ => readsOnly_throw _
  | succ depth ih =>
    refine local_typeCode.bind fun code => ?_
    have htys := fun count => local_many ih count
    have hfields := fun count => local_many (local_field ih) count
    cases code with
    | array => exact ih.map Ty.array
    | tuple => exact local_typeCount.bind fun count => (htys count).map Ty.tuple
    | union => exact local_typeCount.bind fun count => (htys count).map Ty.union
    | struct => exact local_typeCount.bind fun count => (hfields count).map Ty.struct
    | lambda =>
      exact ih.bind fun result => local_typeCount.bind fun count =>
        (hfields count).bind fun params => local_bool.map (Ty.lambda params result)
    | ref => exact local_ident.map Ty.ref
    | objRef => exact local_ident.map Ty.objRef
    | ident => exact local_ident.map Ty.ident
    | _ => exact local_pure _

/-- At the end of the code there is no type, however deep it may be. -/
theorem readAt_tyWithin_of_le (depth : Nat) {pos : Nat} (h : code.size ≤ pos) :
    (tyWithin depth).readAt code pos = .error (.unexpectedEnd pos) pos := by
  cases depth with
  | zero => rfl
  | succ depth => exact readAt_bind_of_error (readAt_typeCode_of_le h)

theorem agreeFrom_field {d d' : Decoder Ty} (hd : AgreeFrom code start d d') (hlocal : Local d) :
    AgreeFrom code start (field d) (field d') :=
  (AgreeFrom.refl _).bind local_ident fun name => hd.map (name, ·) hlocal

/-- By the first depth: the types inside start at least one byte further on, where one less is
enough. -/
theorem agreeFrom_tyWithin (m n : Nat) (hm : code.size ≤ start + m) (hn : code.size ≤ start + n) :
    AgreeFrom code start (tyWithin m) (tyWithin n) := by
  induction m generalizing start n with
  | zero =>
    intro pos hpos
    rw [readAt_tyWithin_of_le 0 (by omega), readAt_tyWithin_of_le n (by omega)]
  | succ m ih =>
    cases n with
    | zero =>
      intro pos hpos
      rw [readAt_tyWithin_of_le (m + 1) (by omega), readAt_tyWithin_of_le 0 (by omega)]
    | succ n =>
      have hinner : AgreeFrom code (start + 1) (tyWithin m) (tyWithin n) :=
        ih n (by omega) (by omega)
      have hlocal := local_tyWithin m
      have hcount : AgreeFrom code (start + 1) typeCount typeCount := .refl _
      have htys := agreeFrom_many hinner hlocal
      have hfields := agreeFrom_many (agreeFrom_field hinner hlocal) (local_field hlocal)
      have htysLocal := local_many hlocal
      have hfieldsLocal := local_many (local_field hlocal)
      refine AgreeFrom.behind (local_typeCode.one_le rfl) fun code => ?_
      cases code with
      | array => exact hinner.map Ty.array hlocal
      | tuple =>
        exact hcount.bind local_typeCount fun k => (htys k).map Ty.tuple (htysLocal k)
      | union =>
        exact hcount.bind local_typeCount fun k => (htys k).map Ty.union (htysLocal k)
      | struct =>
        exact hcount.bind local_typeCount fun k => (hfields k).map Ty.struct (hfieldsLocal k)
      | lambda =>
        refine hinner.bind hlocal fun result => hcount.bind local_typeCount fun k => ?_
        exact (hfields k).bind (hfieldsLocal k) fun params => .refl _
      | _ => exact .refl _

theorem local_ty : Local ty :=
  Local.remaining local_tyWithin fun _ _ m n hm hn => agreeFrom_tyWithin m n hm hn

/-! ## Values -/

theorem local_members {d : Decoder Value} (hd : Local d) : Local (members d) :=
  local_byte.bind fun count => local_many hd count.toNat

theorem local_contents {d : Decoder Value} (hd : Local d) (t : Ty) : Local (contents d t) := by
  cases t with
  | nil => exact local_pure _
  | bool => exact local_bool.map Value.bool
  | int => exact local_int.map Value.int
  | int8 => exact local_int8.map Value.int8
  | int16 => exact local_int16.map Value.int16
  | float32 => exact local_float32.map Value.float32
  | float64 => exact local_float64.map Value.float64
  | complex64 => exact local_float32.bind fun re => local_float32.map (Value.complex64 re)
  | complex128 => exact local_float64.bind fun re => local_float64.map (Value.complex128 re)
  | string => exact local_text.map Value.string
  | char => exact local_char.map Value.char
  | tuple members => exact (local_members hd).map Value.tuple
  | array elem => exact (local_members hd).map (Value.array elem)
  | struct fields => exact (local_members hd).map (Value.struct fields)
  | objRef name => exact hd.map (Value.named name)
  | any | union | lambda | ref | ident => exact local_invalid _

theorem local_valueWithin (depth : Nat) : Local (valueWithin depth) := by
  induction depth with
  | zero => exact ReadsOnly.positioned fun _ => readsOnly_throw _
  | succ depth ih => exact local_ty.bind fun t => local_contents ih t

theorem readAt_valueWithin_of_le (depth : Nat) {pos : Nat} (h : code.size ≤ pos) :
    (valueWithin depth).readAt code pos = .error (.unexpectedEnd pos) pos := by
  cases depth with
  | zero => rfl
  | succ depth =>
    have hty : ty.readAt code pos = .error (.unexpectedEnd pos) pos := readAt_tyWithin_of_le _ h
    exact readAt_bind_of_error hty

theorem agreeFrom_contents {d d' : Decoder Value} (hd : AgreeFrom code start d d')
    (hlocal : Local d) (t : Ty) : AgreeFrom code start (contents d t) (contents d' t) := by
  have hmembers : AgreeFrom code start (members d) (members d') :=
    (AgreeFrom.refl _).bind local_byte fun count => agreeFrom_many hd hlocal count.toNat
  have hmembersLocal := local_members hlocal
  cases t with
  | tuple members => exact hmembers.map Value.tuple hmembersLocal
  | array elem => exact hmembers.map (Value.array elem) hmembersLocal
  | struct fields => exact hmembers.map (Value.struct fields) hmembersLocal
  | objRef name => exact hd.map (Value.named name) hlocal
  | _ => exact .refl _

theorem agreeFrom_valueWithin (m n : Nat) (hm : code.size ≤ start + m)
    (hn : code.size ≤ start + n) : AgreeFrom code start (valueWithin m) (valueWithin n) := by
  induction m generalizing start n with
  | zero =>
    intro pos hpos
    rw [readAt_valueWithin_of_le 0 (by omega), readAt_valueWithin_of_le n (by omega)]
  | succ m ih =>
    cases n with
    | zero =>
      intro pos hpos
      rw [readAt_valueWithin_of_le (m + 1) (by omega), readAt_valueWithin_of_le 0 (by omega)]
    | succ n =>
      have hinner : AgreeFrom code (start + 1) (valueWithin m) (valueWithin n) :=
        ih n (by omega) (by omega)
      exact AgreeFrom.behind (local_ty.one_le rfl) fun t =>
        agreeFrom_contents hinner (local_valueWithin m) t

theorem local_value : Local value :=
  Local.remaining local_valueWithin fun _ _ m n hm hn => agreeFrom_valueWithin m n hm hn

/-! ## Reading elsewhere, and reading what was cut off -/

/-- Whatever the decoder reads, it reads again where the same bytes stand, whatever stands around
them. Where they are cut off it says that the code has ended, and nothing else. -/
def ReadsLocally (d : Decoder α) : Prop :=
  ∀ (code : Code) (pos : Nat) (a : α) (stop : Nat), d.readAt code pos = .ok a stop →
    ∃ k, 0 < k ∧ stop = pos + k ∧ stop ≤ code.size ∧ ∀ (other : Code) (start : Nat),
      (∀ i < k, other[start + i]? = code[pos + i]?) →
      d.readAt other start = .ok a (start + k) ∧
      ∀ j < k, ∃ offset halt, d.readAt (other.extract 0 (start + j)) start =
        .error (.unexpectedEnd offset) halt

theorem Local.readsLocally {d : Decoder α} (hd : Local d) {fault : Fault} {halt : Nat}
    (hempty : d.readAt #[] 0 = .error fault halt) : d.ReadsLocally := by
  intro code pos a stop h
  obtain ⟨bs, hbs, rfl, hreads, hends⟩ := hd code pos a stop h
  obtain ⟨cs, -, hlength, hone⟩ := hd.one_le hempty code pos a _ h
  have hle : bs.length ≤ code.size - pos := by simpa using hbs.length_le
  refine ⟨bs.length, by omega, rfl, by omega, fun other start hsame => ?_⟩
  have hat : other.HasAt start bs := by
    refine Code.hasAt_of_getElem? (by omega) fun i hi => ?_
    rw [hsame i hi, ← Array.getElem?_toList, ← List.getElem?_drop,
      List.prefix_iff_getElem?.mp hbs i hi, List.getElem?_eq_getElem hi]
  exact ⟨hreads other start hat, fun j hj => hends _ start (hat.endsInside hj)⟩

end Decoder

open Decoder

/-- Texts, identifiers, types and values are read locally: what was read once is read again wherever
the same bytes stand, and is missed as the end of the code wherever the code ends among them. -/
theorem decoding_is_local :
    text.ReadsLocally ∧ ident.ReadsLocally ∧ ty.ReadsLocally ∧ value.ReadsLocally :=
  ⟨local_text.readsLocally rfl, local_ident.readsLocally rfl, local_ty.readsLocally rfl,
    local_value.readsLocally rfl⟩

/-- A pair of a text and a number is read in the middle of a code and at the start of another. Cut
off inside the number or right behind the first byte, it is missed. -/
theorem decoding_is_local_pair :
    let pair : Value := .tuple [.string "hi", .int16 513]
    let bytes : Code := #[13, 0, 2, 10, 4, 2, 104, 105, 5, 1, 2]
    value.readAt #[7, 7, 13, 0, 2, 10, 4, 2, 104, 105, 5, 1, 2, 7] 2 = .ok pair 13 ∧
    value.readAt bytes 0 = .ok pair 11 ∧
    (∃ offset halt, value.readAt (bytes.extract 0 10) 0 = .error (.unexpectedEnd offset) halt) ∧
    ∃ offset halt, value.readAt (bytes.extract 0 1) 0 = .error (.unexpectedEnd offset) halt := by
  intro pair bytes
  have hread : value.readAt #[7, 7, 13, 0, 2, 10, 4, 2, 104, 105, 5, 1, 2, 7] 2 = .ok pair 13 := rfl
  obtain ⟨k, -, hstop, -, hlocal⟩ := decoding_is_local.2.2.2 _ _ _ _ hread
  obtain rfl : k = 11 := by omega
  have hsame : ∀ i < 11, bytes[0 + i]? =
      (#[7, 7, 13, 0, 2, 10, 4, 2, 104, 105, 5, 1, 2, 7] : Code)[2 + i]? := by decide
  obtain ⟨hagain, hcut⟩ := hlocal bytes 0 hsame
  exact ⟨hread, hagain, hcut 10 (by decide), hcut 1 (by decide)⟩

end BytecodeCompiler

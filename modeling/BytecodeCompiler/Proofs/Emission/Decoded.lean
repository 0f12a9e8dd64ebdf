import BytecodeCompiler.Proofs.Emission.Recovery

-- The walk through the code of a flat program. It stops where the code stops and finds what was
-- written.

namespace BytecodeCompiler

open Piece (bytesAll encodableAll framesAll labelsAll sizeAll targetsAll)

namespace Decoder

/-! ## Reading at a position -/

/-- If the bytes stand at this position, the decoder gives the value there and stops behind them. -/
def ReadsAt {α : Type} (d : Decoder α) (pos : Nat) (bs : List UInt8) (a : α) : Prop :=
  ∀ code, Code.HasAt code pos bs → d.readAt code pos = .ok a (pos + bs.length)

theorem Reads.at {α : Type} {d : Decoder α} {bs : List UInt8} {a : α} (h : Reads d bs a)
    (pos : Nat) :
    ReadsAt d pos bs a := fun code => h code pos

section Sequences

variable {α β : Type} {d : Decoder α} {pos : Nat} {bs cs : List UInt8} {a : α} {b : β}

theorem ReadsAt.bind {f : α → Decoder β} (hd : ReadsAt d pos bs a)
    (hf : ReadsAt (f a) (pos + bs.length) cs b) : ReadsAt (d >>= f) pos (bs ++ cs) b := by
  intro code h
  rw [readAt_bind_of_ok (hd code h.left), hf code h.right, List.length_append, Nat.add_assoc]

/-- The last step reads nothing more. -/
theorem ReadsAt.last {f : α → Decoder β} (hd : ReadsAt d pos bs a)
    (hf : ReadsAt (f a) (pos + bs.length) [] b) : ReadsAt (d >>= f) pos bs b := by
  have h := hd.bind hf
  rwa [List.append_nil] at h

theorem ReadsAt.positioned {f : Nat → Decoder β} (h : ReadsAt (f pos) pos bs b) :
    ReadsAt (position >>= f) pos bs b := by
  intro code hat
  rw [readAt_position_bind]
  exact h code hat

/-- With the bytes that are left as the depth, nothing that was written is too deep. -/
theorem ReadsAt.remaining {f : Nat → Decoder α}
    (h : ∀ depth, bs.length ≤ depth → ReadsAt (f depth) pos bs a) :
    ReadsAt (do f (← remaining)) pos bs a := by
  intro code hat
  have hend := hat.end_le
  exact h (code.size - pos) (by omega) code hat

theorem ReadsAt.cast {b : α} (hd : ReadsAt d pos bs a) (hb : bs = cs) (ha : a = b) :
    ReadsAt d pos cs b := hb ▸ ha ▸ hd

end Sequences

/-! ## Codes -/

theorem ofByte_opcode (op : Opcode) : Opcode.ofByte? op.byte = some op := by
  cases op <;> rfl

theorem ofByte_operator (op : Operator) : Operator.ofByte? op.code = some op := by
  cases op <;> rfl

theorem ofByte_useMode (mode : UseMode) : UseMode.ofByte? mode.code = some mode := by
  cases mode <;> rfl

theorem reads_opcode (op : Opcode) : Reads opcode [op.byte] op := by
  refine Reads.positioned fun pos => ?_
  refine (reads_byte op.byte).last ?_
  rw [ofByte_opcode]
  exact reads_pure op

theorem reads_operator (op : Operator) : Reads operator [op.code] op := by
  refine (reads_byte op.code).last ?_
  rw [ofByte_operator]
  exact reads_pure op

theorem reads_useMode (mode : UseMode) : Reads useMode [mode.code] mode := by
  refine (reads_byte mode.code).last ?_
  rw [ofByte_useMode]
  exact reads_pure mode

theorem reads_expect (op : Opcode) : Reads (expect op) [op.byte] () := by
  refine (reads_opcode op).last ?_
  rw [if_pos rfl]
  exact reads_pure ()

/-- A look at the next opcode reads nothing. -/
theorem ReadsAt.peeked {α : Type} {f : Option Opcode → Decoder α} {pos : Nat} {op : Opcode}
    {bs : List UInt8} {a : α} (h : ReadsAt (f (some op)) pos (op.byte :: bs) a) :
    ReadsAt (peekOpcode? >>= f) pos (op.byte :: bs) a := by
  intro code hat
  have hpeek : peekOpcode?.readAt code pos = .ok (some op) pos := by
    unfold peekOpcode?
    rw [readAt_read_bind, readAt_position_bind, Source.code_ofCode, hat.head, Option.bind_some,
      ofByte_opcode]
    rfl
  rw [readAt_bind_of_ok hpeek]
  exact h code hat

/-! ## Fields of instructions -/

theorem reads_declaration (d : Declaration) (h : d.name.encodable = true) :
    Reads declaration (boolByte d.isPub :: boolByte d.isConst :: d.name.bytes) d :=
  (reads_bool d.isPub).bind ((reads_bool d.isConst).bind
    ((reads_ident d.name h).map (Declaration.mk d.isPub d.isConst)))

theorem reads_signature (s : Signature) (h : s.toTy.encodable = true) :
    Reads signature s.toTy.bytes s := by
  refine (reads_ty s.toTy h).last ?_
  exact reads_pure s

theorem reads_target {offset : Ident → Nat} {l : Ident} (h : offset l < 0x10000) :
    Reads target (leBytes 2 (offset l)) (Instr.jumpTo offset l) := by
  have hshort := (reads_short (UInt16.ofNat (offset l))).map Ident.short
  exact hshort.cast (by rw [UInt16.toNat_ofNat_of_lt' h]) rfl

theorem reads_idents (is : List Ident) (h : encodableAll (is.map .ident) = true)
    (offset : Ident → Nat) :
    Reads (many ident is.length) (bytesAll offset (is.map .ident)) is := by
  induction is with
  | nil => exact reads_pure []
  | cons i is ih =>
    simp only [List.map_cons, encodableAll, Piece.encodable, Bool.and_eq_true] at h
    exact (reads_ident i h.1).bind ((ih h.2).map (i :: ·))

/-! ## Plain instructions -/

/-- The opcodes in front of which the walk does more than read operands. -/
def blockOpcodes : List Opcode := [.blockBegin, .blockEnd, .lambda]

/-- What stands in the code for a plain instruction is its opcode and what the operand table of the
opcode reads as the instruction. -/
theorem reads_plain {offset : Ident → Nat} {i : Instr} (hi : i.isPlain = true)
    (h : encodableAll i.layout = true) (hrange : ∀ l ∈ targetsAll i.layout, offset l < 0x10000) :
    ∃ op bs, op ∉ blockOpcodes ∧ bytesAll offset i.layout = op.byte :: bs ∧
      Reads (instruction op) bs (i.recoveredPlain offset) := by
  have hoperand : ∀ {j : Instr}, j.isOperand = true → encodableAll j.layout = true →
      Reads operand (bytesAll offset j.layout) j.recoveredOperand :=
    fun {j} hj hjs => reads_operand offset j hj hjs
  cases i
  case collection op a b span =>
    simp only [Instr.isPlain, Bool.and_eq_true] at hi
    cases op <;>
    simp only [Instr.layout, Piece.opcode, List.cons_append, List.nil_append, encodableAll,
      Piece.encodable, Piece.encodableAll_append, bytesAll, Piece.bytes, Piece.bytesAll_append,
      Bool.true_and, Bool.and_eq_true] at h ⊢
    · exact ⟨.cadd, _, by decide, rfl, (hoperand hi.1 h.1).bind
        ((hoperand hi.2 h.2).map (Instr.collection .add _ · .none))⟩
    · exact ⟨.cremove, _, by decide, rfl, (hoperand hi.1 h.1).bind
        ((hoperand hi.2 h.2).map (Instr.collection .remove _ · .none))⟩
  all_goals
    simp only [Instr.isPlain, Instr.layout, Piece.opcode, Piece.declaration, Piece.bool,
      List.cons_append, List.nil_append, List.append_assoc, encodableAll, Piece.encodable,
      Piece.encodableAll_append, bytesAll, Piece.bytes, Piece.bytesAll_append, targetsAll,
      Piece.targets, Piece.targetsAll_append, List.append_nil, Bool.true_and, Bool.and_true,
      Bool.and_eq_true, Bool.false_eq_true, decide_eq_true_eq] at hi h hrange ⊢
  case set decl t a span =>
    exact ⟨.set, _, by decide, rfl, (reads_declaration decl h.1).bind ((reads_ty t h.2.1).bind
      ((hoperand hi h.2.2).map (Instr.set decl t · .none)))⟩
  case typeAlias decl t span =>
    exact ⟨.typeAlias, _, by decide, rfl, (reads_declaration decl h.1).bind
      ((reads_ty t h.2).map (Instr.typeAlias decl · .none))⟩
  case mov a b span =>
    exact ⟨.mov, _, by decide, rfl, (hoperand hi.1 h.1).bind
      ((hoperand hi.2 h.2).map (Instr.mov _ · .none))⟩
  case unary op a span =>
    -- The second operand is a nil that was written in its place.
    have hnil : Reads operand Value.nil.bytes (.value .nil .none) :=
      (hoperand (j := .value .nil .none) rfl rfl).cast (by rfl) rfl
    exact ⟨.operation, _, by decide, rfl, (reads_operator op).bind (hnil.bind
      ((hoperand hi h.2).map (Instr.binary op · _ .none)))⟩
  case binary op a b span =>
    exact ⟨.operation, _, by decide, rfl, (reads_operator op).bind ((hoperand hi.2 h.1).bind
      ((hoperand hi.1 h.2).map (Instr.binary op · _ .none)))⟩
  case indexGet a nilSafe b span =>
    exact ⟨.iget, _, by decide, rfl, (reads_bool nilSafe).bind ((hoperand hi.1 h.1).bind
      ((hoperand hi.2 h.2).map (Instr.indexGet _ nilSafe · .none)))⟩
  case indexSet a b c span =>
    exact ⟨.cset, _, by decide, rfl, (hoperand hi.1.1 h.1).bind ((hoperand hi.1.2 h.2.1).bind
      ((hoperand hi.2 h.2.2).map (Instr.indexSet _ _ · .none)))⟩
  case length a span =>
    exact ⟨.ilen, _, by decide, rfl, (hoperand hi h).map (Instr.length · .none)⟩
  case attrGet name nilSafe a span =>
    exact ⟨.aget, _, by decide, rfl, (reads_bool nilSafe).bind ((hoperand hi h.1).bind
      ((reads_ident name h.2).map (Instr.attrGet · nilSafe _ .none)))⟩
  case attrSet nilSafe name a b span =>
    exact ⟨.aset, _, by decide, rfl, (reads_bool nilSafe).bind ((reads_ident name h.1).bind
      ((hoperand hi.1 h.2.1).bind
        ((hoperand hi.2 h.2.2).map (Instr.attrSet nilSafe name _ · .none))))⟩
  case cast t a span =>
    exact ⟨.cast, _, by decide, rfl, (reads_ty t h.1).bind
      ((hoperand hi h.2).map (Instr.cast t · .none))⟩
  case call a b span =>
    exact ⟨.call, _, by decide, rfl, (hoperand hi.1 h.1).bind
      ((hoperand hi.2 h.2).map (Instr.call _ · .none))⟩
  case ternary a b c span =>
    exact ⟨.tif, _, by decide, rfl, (hoperand hi.2 h.1).bind ((hoperand hi.1.2 h.2.1).bind
      ((hoperand hi.1.1 h.2.2).map (Instr.ternary · _ _ .none)))⟩
  case compareJump a b l span =>
    exact ⟨.compareJump, _, by decide, rfl, (hoperand hi.1 h.1).bind ((hoperand hi.2 h.2).bind
      ((reads_target (hrange l (by simp))).map (Instr.compareJump _ _ · .none)))⟩
  case jump l span =>
    exact ⟨.jump, _, by decide, rfl,
      (reads_target (hrange l (by simp))).map (Instr.jump · .none)⟩
  case ret a span =>
    exact ⟨.ret, _, by decide, rfl, (hoperand hi h).map (Instr.ret · .none)⟩
  case use mode package imports span =>
    refine ⟨.use, _, by decide, rfl, (reads_useMode mode).bind ((reads_ident package h.1).bind
      ((reads_byte (UInt8.ofNat imports.length)).bind ?_))⟩
    rw [UInt8.toNat_ofNat_of_lt' h.2.1]
    exact (reads_idents imports h.2.2 offset).map (Instr.use mode package · .none)

/-! ## Statements and rows -/

theorem readsAt_instruction {row : Decoder Walk} {op : Opcode} {bs : List UInt8} {i : Instr}
    (hop : op ∉ blockOpcodes) (h : Reads (instruction op) bs i) (pos : Nat) :
    ReadsAt (statement row) pos (op.byte :: bs) ⟨[i], [pos], []⟩ := by
  refine ReadsAt.positioned (((reads_opcode op).at pos).bind ?_)
  have hlast := (h.map fun i => (⟨[i], [pos], []⟩ : Walk)).at (pos + [op.byte].length)
  cases op with
  | blockBegin | blockEnd | lambda => exact absurd (by decide) hop
  | _ => exact hlast

/-- A block behind its first byte. Its row is read up to its end, and its length counts from behind
itself. -/
theorem readsAt_framed {row : Decoder Walk} {pos n : Nat} {bs : List UInt8} {w : Walk}
    (hn : n < 0x10000) (hrow : ReadsAt row (pos + 2) bs w) :
    ReadsAt (framed row) pos (leBytes 2 n ++ bs)
      ⟨w.body, w.boundaries, ⟨pos + 2, n, pos + 2 + bs.length⟩ :: w.frames⟩ := by
  have hlength : Reads short (leBytes 2 n) (UInt16.ofNat n) :=
    (reads_short (UInt16.ofNat n)).cast (by rw [UInt16.toNat_ofNat_of_lt' hn]) rfl
  refine (hlength.at pos).bind ?_
  rw [length_leBytes]
  refine ReadsAt.positioned (hrow.last (ReadsAt.positioned ?_))
  rw [UInt16.toNat_ofNat_of_lt' hn]
  exact (reads_pure _).at _

/-- What the walk finds in a row of instructions that starts at the given offset. -/
def found (offset : Ident → Nat) (start : Nat) (is : List Instr) : Walk :=
  ⟨Instr.recoveredAll offset is, Instr.boundariesAll start is,
    framesAll start (Instr.layoutAll is)⟩

/-- The row as it stands in the code, with the byte that ends it. -/
def rowBytes (offset : Ident → Nat) (is : List Instr) : List UInt8 :=
  bytesAll offset (Instr.layoutAll is) ++ [Opcode.blockEnd.byte]

theorem length_rowBytes (offset : Ident → Nat) (is : List Instr) :
    (rowBytes offset is).length = sizeAll (Instr.layoutAll is) + 1 := by
  rw [rowBytes, List.length_append, Piece.length_bytesAll, List.length_singleton]

/-- What the walk needs of pieces to find its way: they can be written, the blocks are short
enough, and the jumps stay within two bytes. -/
structure Readable (offset : Ident → Nat) (ps : List Piece) : Prop where
  encodable : encodableAll ps = true
  framed : Piece.framedAll ps = true
  inRange : ∀ l ∈ targetsAll ps, offset l < 0x10000

theorem Readable.left {offset : Ident → Nat} {ps qs : List Piece} (h : Readable offset (ps ++ qs)) :
    Readable offset ps := by
  obtain ⟨hencodable, hframed, hrange⟩ := h
  rw [Piece.encodableAll_append, Bool.and_eq_true] at hencodable
  rw [Piece.framedAll_append, Bool.and_eq_true] at hframed
  rw [Piece.targetsAll_append] at hrange
  exact ⟨hencodable.1, hframed.1, fun l hl => hrange l (List.mem_append_left _ hl)⟩

theorem Readable.right {offset : Ident → Nat} {ps qs : List Piece}
    (h : Readable offset (ps ++ qs)) :
    Readable offset qs := by
  obtain ⟨hencodable, hframed, hrange⟩ := h
  rw [Piece.encodableAll_append, Bool.and_eq_true] at hencodable
  rw [Piece.framedAll_append, Bool.and_eq_true] at hframed
  rw [Piece.targetsAll_append] at hrange
  exact ⟨hencodable.2, hframed.2, fun l hl => hrange l (List.mem_append_right _ hl)⟩

theorem Readable.tail {offset : Ident → Nat} {p : Piece} {ps : List Piece}
    (h : Readable offset (p :: ps)) : Readable offset ps :=
  Readable.right (show Readable offset ([p] ++ ps) from h)

theorem Readable.inside {offset : Ident → Nat} {inside : List Piece}
    (h : Readable offset [.frame inside]) :
    sizeAll inside + 1 < 0x10000 ∧ Readable offset inside := by
  obtain ⟨hencodable, hframed, hrange⟩ := h
  simp only [encodableAll, Piece.encodable, Bool.and_true] at hencodable
  simp only [Piece.framedAll, Piece.framed, Bool.and_true, Bool.and_eq_true, decide_eq_true_eq]
    at hframed
  simp only [targetsAll, Piece.targets, List.append_nil] at hrange
  exact ⟨hframed.1, hencodable, hframed.2, hrange⟩

theorem readsAt_plain {offset : Ident → Nat} {i : Instr} (h : Readable offset i.layout)
    (hi : i.isPlain = true) (row : Decoder Walk) (pos : Nat) :
    ∃ op bs, op ≠ Opcode.blockEnd ∧ bytesAll offset i.layout = op.byte :: bs ∧
      ReadsAt (statement row) pos (op.byte :: bs)
        ⟨[i.recoveredPlain offset], [pos], framesAll pos i.layout⟩ := by
  obtain ⟨op, bs, hop, hbytes, hreads⟩ := reads_plain hi h.encodable h.inRange
  have hend : op ≠ .blockEnd := by
    rintro rfl
    exact hop (by decide)
  rw [Piece.framesAll_of_simple pos (Instr.simple_of_isPlain hi)]
  exact ⟨op, bs, hend, hbytes, readsAt_instruction hop hreads pos⟩

mutual

/-- A statement that is no label starts with an opcode that ends no block, and the walk finds it. -/
theorem readsAt_statement (offset : Ident → Nat) (i : Instr) (hflat : i.isFlat = true)
    (hlabel : ¬ ∃ name span, i = .label name span) (h : Readable offset i.layout) (depth : Nat)
    (hdepth : (bytesAll offset i.layout).length ≤ depth) (pos : Nat) :
    ∃ op bs, op ≠ Opcode.blockEnd ∧ bytesAll offset i.layout = op.byte :: bs ∧
      ReadsAt (statement (rowWithin depth)) pos (op.byte :: bs)
        ⟨i.recovered offset, i.boundaries pos, framesAll pos i.layout⟩ := by
  cases i with
  | label name span => exact absurd ⟨name, span, rfl⟩ hlabel
  | block body span =>
    obtain ⟨hsize, hinside⟩ := Readable.inside h.tail
    have hbytes : bytesAll offset (Instr.block body span).layout = Opcode.blockBegin.byte ::
        (leBytes 2 (sizeAll (Instr.layoutAll body) + 1) ++ rowBytes offset body) := by
      simp [Instr.layout, bytesAll, Piece.bytes, rowBytes]
    rw [hbytes] at hdepth
    simp only [List.length_cons, List.length_append] at hdepth
    have hrow := readsAt_row offset body hflat hinside depth (by omega) (pos + 1 + 2)
    refine ⟨.blockBegin, _, by decide, hbytes, ?_⟩
    refine ReadsAt.positioned (((reads_opcode .blockBegin).at pos).bind ?_)
    refine (readsAt_framed hsize hrow).last (((reads_pure _).at _).cast rfl ?_)
    rw [length_rowBytes]
    simp only [Instr.recovered, Instr.boundaries, Instr.layout, framesAll, Piece.frames, Piece.size,
      List.nil_append, List.append_nil, Nat.add_zero, found]
  | lambda s body span =>
    obtain ⟨hsize, hinside⟩ := Readable.inside h.tail.tail.tail
    have hsignature : s.toTy.encodable = true := by
      have hencodable := h.encodable
      simp only [Instr.layout, Piece.opcode, encodableAll, Piece.encodable, Bool.true_and,
        Bool.and_eq_true] at hencodable
      exact hencodable.1
    have hbytes : bytesAll offset (Instr.lambda s body span).layout = Opcode.lambda.byte ::
        (s.toTy.bytes ++ Opcode.blockBegin.byte ::
          (leBytes 2 (sizeAll (Instr.layoutAll body) + 1) ++ rowBytes offset body)) := by
      simp [Instr.layout, Piece.opcode, bytesAll, Piece.bytes, rowBytes]
    rw [hbytes] at hdepth
    simp only [List.length_cons, List.length_append] at hdepth
    have hrow := readsAt_row offset body hflat hinside depth (by omega)
      (pos + 1 + s.toTy.bytes.length + 1 + 2)
    refine ⟨.lambda, _, by decide, hbytes, ?_⟩
    refine ReadsAt.positioned (((reads_opcode .lambda).at pos).bind ?_)
    refine ((reads_signature s hsignature).at _).bind (((reads_expect .blockBegin).at _).bind ?_)
    refine (readsAt_framed hsize hrow).last (((reads_pure _).at _).cast rfl ?_)
    rw [length_rowBytes]
    simp only [Instr.recovered, Instr.boundaries, Instr.layout, Piece.opcode, framesAll,
      Piece.frames, Piece.size, List.nil_append, List.append_nil, Nat.add_zero, found]
  | _ => exact readsAt_plain h hflat (rowWithin depth) pos

/-- The walk finds a row up to the end of its block. -/
theorem readsAt_row (offset : Ident → Nat) (is : List Instr) (hflat : Instr.areFlat is = true)
    (h : Readable offset (Instr.layoutAll is)) (depth : Nat)
    (hdepth : (rowBytes offset is).length ≤ depth) (pos : Nat) :
    ReadsAt (rowWithin depth) pos (rowBytes offset is) (found offset pos is) := by
  have hlength := length_rowBytes offset is
  obtain ⟨depth, rfl⟩ : ∃ d, depth = d + 1 := ⟨depth - 1, by omega⟩
  cases is with
  | nil =>
    refine ReadsAt.peeked (ReadsAt.positioned ?_)
    exact ((reads_expect .blockEnd).at pos).last ((reads_pure _).at _)
  | cons i is =>
    simp only [Instr.areFlat, Bool.and_eq_true] at hflat
    simp only [Instr.layoutAll] at h
    by_cases hlabel : ∃ name span, i = .label name span
    · -- A label leaves nothing in the code, so the rest of the row is the whole row.
      obtain ⟨name, span, rfl⟩ := hlabel
      exact readsAt_row offset is hflat.2 h.right (depth + 1) hdepth pos
    · have hbytes : rowBytes offset (i :: is) = bytesAll offset i.layout ++ rowBytes offset is := by
        simp only [rowBytes, Instr.layoutAll, Piece.bytesAll_append, List.append_assoc]
      rw [hbytes] at hdepth ⊢
      rw [List.length_append, length_rowBytes] at hdepth
      obtain ⟨op, bs, hend, hfirst, hstatement⟩ :=
        readsAt_statement offset i hflat.1 hlabel h.left depth (by omega) pos
      have hsize : sizeAll i.layout = (op.byte :: bs).length := by
        rw [← hfirst, Piece.length_bytesAll]
      rw [hfirst] at hdepth ⊢
      have hothers := readsAt_row offset is hflat.2 h.right depth
        (by rw [length_rowBytes]; simp only [List.length_cons] at hdepth; omega)
        (pos + (op.byte :: bs).length)
      refine ReadsAt.peeked ?_
      have hwalk : ReadsAt (do
          let first ← statement (rowWithin depth)
          let others ← rowWithin depth
          return first ++ others) pos (op.byte :: bs ++ rowBytes offset is)
          (found offset pos (i :: is)) := by
        refine hstatement.bind (hothers.last (((reads_pure _).at _).cast rfl ?_))
        simp only [found, Instr.recoveredAll, Instr.boundariesAll, Instr.layoutAll,
          Piece.framesAll_append, hsize]
        rfl
      cases op with
      | blockEnd => exact absurd rfl hend
      | _ => exact hwalk

end

/-- The walk finds a whole program, which is one block. -/
theorem reads_walk (offset : Ident → Nat) (body : List Instr) (hflat : Instr.areFlat body = true)
    (h : Readable offset [Instr.program body]) :
    ReadsAt walk 0 ((Instr.program body).bytes offset)
      ⟨Instr.recoveredAll offset body, Instr.boundariesAll 3 body,
        (Instr.program body).frames 0⟩ := by
  obtain ⟨hsize, hinside⟩ := h.inside
  have hbytes : (Instr.program body).bytes offset = [Opcode.blockBegin.byte] ++
      (leBytes 2 (sizeAll (Instr.layoutAll body) + 1) ++ rowBytes offset body) := rfl
  rw [hbytes]
  refine ((reads_expect .blockBegin).at 0).bind (ReadsAt.remaining fun depth hdepth => ?_)
  rw [List.length_append] at hdepth
  have hrow := readsAt_row offset body hflat hinside depth (by omega) 3
  refine (readsAt_framed hsize hrow).cast rfl ?_
  rw [length_rowBytes]
  rfl

end Decoder

/-! ## Blocks are as long as they say -/

/-- The length of a block reaches from behind itself over the byte that ends the block. -/
structure Frame.Exact (code : Code) (f : Frame) : Prop where
  length : f.start + f.length = f.stop
  ending : code[f.stop - 1]? = some Opcode.blockEnd.byte

namespace Piece

mutual

theorem frames_exact (offset : Ident → Nat) (p : Piece) (start : Nat) {code : Code}
    (h : code.HasAt start (p.bytes offset)) : ∀ f ∈ p.frames start, f.Exact code := by
  cases p with
  | frame inside =>
    have hinside := h.tail.right
    rw [length_leBytes] at hinside
    have hending := hinside.right
    rw [length_bytesAll] at hending
    intro f hf
    rcases List.mem_cons.mp hf with rfl | hf
    · exact ⟨rfl, hending.head⟩
    · exact framesAll_exact offset inside (start + 3) hinside.left f hf
  | _ => exact fun f hf => nomatch hf

theorem framesAll_exact (offset : Ident → Nat) (ps : List Piece) (start : Nat) {code : Code}
    (h : code.HasAt start (bytesAll offset ps)) : ∀ f ∈ framesAll start ps, f.Exact code := by
  cases ps with
  | nil => exact fun f hf => nomatch hf
  | cons p ps =>
    have hothers := Code.HasAt.right h
    rw [length_bytes] at hothers
    intro f hf
    rcases List.mem_append.mp hf with hf | hf
    · exact frames_exact offset p start (Code.HasAt.left h) f hf
    · exact framesAll_exact offset ps (start + p.size) hothers f hf

end

end Piece

/-! ## Assembled programs -/

/-- What was assembled fits and is the code of the two-pass assembler. -/
theorem fits_of_assembled {files : FileSet} {body : List Instr} {code : Code} {map : SourceMap}
    (h : Instr.assemble files body = .ok (code, map)) :
    TwoPass.Fits body ∧ code = TwoPass.code body := by
  by_cases hfits : TwoPass.Fits body
  · obtain ⟨map', hok⟩ := assemble_of_fits files hfits
    rw [hok, Except.ok.injEq, Prod.mk.injEq] at h
    exact ⟨hfits, h.1.symm⟩
  · obtain ⟨fault, herror, -⟩ := assemble_of_not_fits files hfits
    rw [herror] at h
    cases h

/-- The offset of a label that a jump names is that of a label in the table. -/
theorem mem_table_of_target {body : List Instr} (hfits : TwoPass.Fits body) {l : Ident}
    (hl : l ∈ (Instr.program body).targets) :
    (l, offsetIn (TwoPass.table body) l) ∈ TwoPass.table body := by
  have hnames : (TwoPass.table body).map Prod.fst = (Instr.program body).names :=
    Piece.map_fst_labels 0 (Instr.program body)
  have hmem := hfits.closed l hl
  rw [← hnames] at hmem
  obtain ⟨⟨name, n⟩, hentry, rfl⟩ := List.mem_map.mp hmem
  rw [offsetIn, lookup_of_mem (hnames ▸ hfits.distinct) hentry]
  exact hentry

theorem readable_of_fits {body : List Instr} (hfits : TwoPass.Fits body) :
    Decoder.Readable (offsetIn (TwoPass.table body)) [Instr.program body] := by
  constructor
  · simpa only [encodableAll, Bool.and_true] using hfits.encodable
  · simpa only [Piece.framedAll, Bool.and_true] using hfits.framed
  · intro l hl
    simp only [targetsAll, List.append_nil] at hl
    exact Nat.lt_succ_of_le (hfits.inRange _ (mem_table_of_target hfits hl))

/-- A flat program that was assembled comes back from its code. The walk reads the code to its end
and finds the tree of blocks, functions and instructions. Every block is as long as it says, and
every jump leads to a place where the walk found the begin of something. Plain reading of values
finds the same operands, without the declared types of tuples. -/
theorem walk_of_assembled {files : FileSet} {body : List Instr} {code : Code} {map : SourceMap}
    (hflat : Instr.areFlat body = true) (h : Instr.assemble files body = .ok (code, map)) :
    ∃ w, Decoder.walk.readAt code 0 = .ok w code.size ∧
      w.body = Instr.recoveredAll (offsetIn (TwoPass.table body)) body ∧
      (∀ f ∈ w.frames, f.Exact code) ∧
      (∀ l ∈ targetsAll (Instr.layoutAll w.body), ∃ t : UInt16,
        l = .short t ∧ t.toNat ∈ w.boundaries) ∧
      (∀ pos i stop, Decoder.operand.readAt code pos = .ok i stop →
        Decoder.value.readAt code pos = .ok i.asValue stop) := by
  obtain ⟨hfits, rfl⟩ := fits_of_assembled h
  have hat : (TwoPass.code body).HasAt 0
      ((Instr.program body).bytes (offsetIn (TwoPass.table body))) :=
    ⟨[], [], by simp [TwoPass.code], rfl⟩
  have hsize : (TwoPass.code body).size =
      ((Instr.program body).bytes (offsetIn (TwoPass.table body))).length := List.size_toArray
  have hwalk := Decoder.reads_walk _ body hflat (readable_of_fits hfits) _ hat
  rw [← hsize, Nat.zero_add] at hwalk
  refine ⟨_, hwalk, rfl, ?_, ?_, fun pos i stop => Decoder.value_of_operand⟩
  · exact Piece.frames_exact _ (Instr.program body) 0 hat
  · intro l' hl'
    rw [Instr.targetsAll_recoveredAll _ body hflat] at hl'
    obtain ⟨l, hl, rfl⟩ := List.mem_map.mp hl'
    have hentry := mem_table_of_target hfits hl
    refine ⟨_, rfl, ?_⟩
    rw [UInt16.toNat_ofNat_of_lt' (Nat.lt_succ_of_le (hfits.inRange _ hentry))]
    exact Instr.mem_boundariesAll 3 body hflat _ hentry

/-- A tuple of operands with a spread tuple in it, and a block that jumps out of itself to the end
of the program and back to its begin. -/
theorem walk_of_assembled_nested :
    let body : List Instr := [.label (.byte 1) .none,
      .ret (.iterable (.tuple [.any]) [.value (.int8 1) .none,
        .value (.spread (.tuple [.bool true])) .none] .none) .none,
      .block [.unary .not (.value .nil .none) .none, .jump (.byte 2) .none,
        .jump (.byte 1) .none] .none,
      .label (.byte 2) .none]
    let code : Code := #[13, 28, 0, 15, 13, 1, 0, 2, 13, 1, 2, 1, 2, 1, 4, 1, 13, 11, 0, 17, 14, 1,
      1, 20, 30, 0, 20, 3, 0, 14, 14]
    Instr.areFlat body = true ∧ Instr.assemble .empty body = .ok (code, .empty) ∧
    ∃ w, Decoder.walk.readAt code 0 = .ok w 31 ∧
      w.body = [.ret (.iterable (.tuple [.any]) [.iterable (.tuple [.bool])
          [.value (.bool true) .none] .none, .value (.int8 1) .none] .none) .none,
        .block [.binary .not (.value .nil .none) (.value .nil .none) .none,
          .jump (.short 30) .none, .jump (.short 3) .none] .none] ∧
      (∀ f ∈ w.frames, f.Exact code) ∧
      (∀ l ∈ targetsAll (Instr.layoutAll w.body), ∃ t : UInt16,
        l = .short t ∧ t.toNat ∈ w.boundaries) := by
  intro body code
  have hflat : Instr.areFlat body = true := rfl
  have h : Instr.assemble .empty body = .ok (code, .empty) := rfl
  obtain ⟨w, hwalk, hbody, hframes, hjumps, -⟩ := walk_of_assembled hflat h
  exact ⟨hflat, h, w, hwalk, hbody, hframes, hjumps⟩

end BytecodeCompiler

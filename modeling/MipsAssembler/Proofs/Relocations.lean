/-
Relocation sites.

A jump leaves its target open.  The name that it jumps to is entered into a table of sites, with the
address of the jump, and nothing else is ever entered there:

* `Instruction.site?` — the site of an instruction, read off its text;
* `Instruction.emit_jump` — what a jump gives, which has nothing to do with the labels;
* `Instruction.relocation_of_emit` — an instruction with a word has the site that its text says;
* `Tables` — a table of labels and one of sites, and what can be asked of them;
* `Tables.symbols_relocations_after` — the sites after any sequence of requests;
* `Tables.after_eq_walk` — the pass that assembles instructions is such a sequence;
* `Program.relocations_are_the_jumps` — all of this for single requests, sequences and programs.

Design notes: in a table with distinct names a second jump to the same name is refused.  The table of an
assembly is not of that kind, so there a name has as many sites as jumps.
-/
import Mathlib
import MipsAssembler.Proofs.ErrorKinds
import MipsAssembler.Proofs.ProgramForm
import MipsAssembler.Proofs.Translation

namespace MipsAssembler

/-! ### One instruction -/

namespace Instruction

variable {i : Instruction} {address : Nat} {labels labels' relocations : SymbolTable}
  {e : Emission}

/-- Whether an instruction is a jump. -/
def IsJump (i : Instruction) : Prop := i.mnemonic = "j" ∨ i.mnemonic = "jal"

instance (i : Instruction) : Decidable i.IsJump := inferInstanceAs (Decidable (_ ∨ _))

/-- The site of an instruction at `address`: a jump has its label there, and others have none. -/
def site? (i : Instruction) (address : Nat) : Option Symbol :=
  if i.IsJump then i.operands.head?.map fun name => ⟨name, address⟩ else none

theorem site?_eq_some_iff {s : Symbol} :
    i.site? address = some s ↔
      i.IsJump ∧ i.operands.head? = some s.name ∧ s.address = address := by
  rw [site?]
  split
  case isTrue hjump =>
    rw [Option.map_eq_some_iff]
    constructor
    · rintro ⟨name, hname, rfl⟩
      exact ⟨hjump, hname, rfl⟩
    · rintro ⟨-, hname, rfl⟩
      exact ⟨s.name, hname, rfl⟩
  case isFalse hjump =>
    exact ⟨nofun, fun h => absurd h.1 hjump⟩

theorem isJump_iff : i.IsJump ↔ ∃ code, Mnemonic.ofText? i.mnemonic = some (.jump code) := by
  constructor
  · rintro (h | h)
    · exact ⟨.j, by rw [h]; rfl⟩
    · exact ⟨.jal, by rw [h]; rfl⟩
  · rintro ⟨code, h⟩
    have htext := Mnemonic.text_of_ofText? h
    cases code with
    | j => exact .inl htext.symm
    | jal => exact .inr htext.symm

/-- The word of a jump, with its target left open. -/
def jumpWord (code : JumpCode) : Word := BitVec.ofNat 32 (code.opcode * 0x4000000)

theorem encode_jump (code : JumpCode) :
    (Op.jump code 0).encode.mapError Error.ofEncode = .ok (jumpWord code) := by
  cases code <;> rfl

theorem toNat_jumpWord (code : JumpCode) : (jumpWord code).toNat = code.opcode * 0x4000000 := by
  cases code <;> rfl

theorem emit_jump {code : JumpCode} (h : Mnemonic.ofText? i.mnemonic = some (.jump code)) :
    i.emit address labels relocations =
      match i.operands with
      | [name] => Operand.label name >>= fun _ =>
          relocations.entryFor name address >>= fun site => .ok ⟨jumpWord code, some site⟩
      | operands => .error (.invalidArity (Mnemonic.jump code).text 1 operands.length) := by
  rw [emit, h]
  dsimp only
  cases i.operands with
  | nil => rfl
  | cons name operands =>
    cases operands with
    | nil =>
      -- The target is left open here, so the word is the same for every jump and encoding cannot fail.
      have hresolve : (Mnemonic.jump code).resolve [name] address labels =
          Operand.label name >>= fun _ => .ok (.jump code 0) := rfl
      rw [hresolve]
      dsimp only
      cases Operand.label name with
      | error e => rfl
      | ok s =>
        exact congrArg (· >>= fun word => relocations.entryFor name address >>= fun site =>
          pure (⟨word, some site⟩ : Emission)) (encode_jump code)
    | cons _ _ => rfl

/-- Jumps do not look at the labels. -/
theorem emit_jump_congr (h : i.IsJump) :
    i.emit address labels relocations = i.emit address labels' relocations := by
  obtain ⟨code, hcode⟩ := isJump_iff.mp h
  rw [emit_jump hcode, emit_jump hcode]

/-- A jump to a label has its word wherever a site may be entered. -/
theorem emit_jump_label {code : JumpCode} {name : String} (hname : Operand.isLabel name.toList)
    (haddress : address % 4 = 0) (hmode : relocations.mode = .repeating) :
    emit ⟨(Mnemonic.jump code).text, [name]⟩ address labels relocations =
      .ok ⟨jumpWord code, some ⟨name, address⟩⟩ := by
  have hcode : Mnemonic.ofText? (Mnemonic.jump code).text = some (.jump code) := by
    cases code <;> rfl
  have hlabel : Operand.label name = .ok name := Operand.label_eq_ok_iff.mpr ⟨hname, rfl⟩
  have hsite : relocations.entryFor name address = .ok ⟨name, address⟩ := by
    simp [SymbolTable.entryFor, haddress, hmode]
  rw [emit_jump hcode]
  simp only [hlabel, hsite]
  rfl

/-- A jump with a word has one operand, a label, and enters it at the jump's own address. -/
theorem jump_of_emit (hjump : i.IsJump) (h : i.emit address labels relocations = .ok e) :
    ∃ code name, i.mnemonic = (Mnemonic.jump code).text ∧ i.operands = [name] ∧
      Operand.isLabel name.toList ∧ e = ⟨jumpWord code, some ⟨name, address⟩⟩ := by
  obtain ⟨code, hcode⟩ := isJump_iff.mp hjump
  rw [emit_jump hcode] at h
  split at h
  case h_1 name hoperands =>
    simp only [bind_eq_ok_iff, Operand.label_eq_ok_iff, SymbolTable.entryFor_eq_ok_iff] at h
    obtain ⟨_, ⟨hlabel, -⟩, _, ⟨-, -, rfl⟩, h⟩ := h
    exact ⟨code, name, (Mnemonic.text_of_ofText? hcode).symm, hoperands, hlabel,
      (Except.ok.inj h).symm⟩
  case h_2 => cases h

theorem relocation_of_not_isJump (hjump : ¬i.IsJump)
    (h : i.emit address labels relocations = .ok e) : e.relocation = none := by
  rw [emit] at h
  split at h
  case h_1 => cases h
  case h_2 m hm =>
    simp only [bind_eq_ok_iff] at h
    obtain ⟨op, -, word, -, h⟩ := h
    split at h
    case h_1 code name _ => exact absurd (isJump_iff.mpr ⟨code, hm⟩) hjump
    case h_2 =>
      obtain rfl := pure_eq_ok_iff.mp h
      rfl

/-- An instruction with a word enters the site that its text says. -/
theorem relocation_of_emit (h : i.emit address labels relocations = .ok e) :
    e.relocation = i.site? address := by
  by_cases hjump : i.IsJump
  · obtain ⟨code, name, -, hoperands, -, rfl⟩ := jump_of_emit hjump h
    rw [site?, if_pos hjump, hoperands]
    rfl
  · rw [relocation_of_not_isJump hjump h, site?, if_neg hjump]

end Instruction

/-! ### Sequences of requests -/

/-- A table of labels, to be extended, and one of relocation sites. -/
structure Tables where
  labels : SymbolTable
  relocations : SymbolTable

namespace Tables

/-- What can be asked of the tables: a new label, or the word of an instruction. -/
inductive Request
  | define (name : String) (address : Nat)
  | translate (i : Instruction) (address : Nat)

/-- The answer to a request, with a word if one was asked for, and the tables after it. -/
def answer (t : Tables) : Request → Except Error (Option Word) × Tables
  | .define name address =>
    match t.labels.insert name address with
    | .ok labels => (.ok none, { t with labels })
    | .error e => (.error e, t)
  | .translate i address =>
    match i.emit address t.labels t.relocations with
    | .ok e => (.ok (some e.word), { t with relocations := t.relocations.pushIfAny e.relocation })
    | .error e => (.error e, t)

/-- The tables after some requests. -/
def after (t : Tables) (requests : List Request) : Tables :=
  requests.foldl (fun t r => (t.answer r).2) t

/-- The site that an answered request leaves behind. -/
def Request.site? : Request → Except Error (Option Word) → Option Symbol
  | .translate i address, .ok _ => i.site? address
  | _, _ => none

/-- The sites of the jumps among some requests that have a word, in the order of the requests. -/
def sites (t : Tables) : List Request → List Symbol
  | [] => []
  | r :: requests => (r.site? (t.answer r).1).toList ++ sites (t.answer r).2 requests

/-- What a request for the word of `i` at `address` may answer, and what becomes of the sites
`before`. -/
inductive Effect (i : Instruction) (address : Nat) (before : SymbolTable) :
    Except Error (Option Word) → SymbolTable → Prop
  | refused (e : Error) : Effect i address before (.error e) before
  | silent (word : Word) : ¬i.IsJump → Effect i address before (.ok (some word)) before
  | jump {code : JumpCode} {name : String} {word : Word} :
    i.mnemonic = (Mnemonic.jump code).text → i.operands = [name] → Operand.isLabel name.toList →
      word.toNat = code.opcode * 2 ^ 26 →
      Effect i address before (.ok (some word)) (before.push ⟨name, address⟩)

theorem effect_translate (t : Tables) (i : Instruction) (address : Nat) :
    Effect i address t.relocations (t.answer (.translate i address)).1
      (t.answer (.translate i address)).2.relocations := by
  rw [answer]
  cases h : i.emit address t.labels t.relocations with
  | error e => exact .refused e
  | ok e =>
    by_cases hjump : i.IsJump
    · obtain ⟨code, name, hmnemonic, hoperands, hlabel, rfl⟩ := Instruction.jump_of_emit hjump h
      exact .jump hmnemonic hoperands hlabel (Instruction.toNat_jumpWord code)
    · dsimp only
      rw [Instruction.relocation_of_not_isJump hjump h]
      exact .silent e.word hjump

/-- A request leaves its own site behind and nothing else. -/
theorem relocations_answer (t : Tables) (r : Request) :
    (t.answer r).2.relocations = t.relocations.pushIfAny (r.site? (t.answer r).1) := by
  cases r with
  | define name address =>
    rw [answer]
    cases t.labels.insert name address <;> rfl
  | translate i address =>
    rw [answer]
    cases h : i.emit address t.labels t.relocations with
    | error e => rfl
    | ok e =>
      dsimp only [Request.site?]
      rw [Instruction.relocation_of_emit h]

theorem symbols_relocations_after (t : Tables) (requests : List Request) :
    (t.after requests).relocations.symbols.toList =
      t.relocations.symbols.toList ++ t.sites requests := by
  induction requests generalizing t with
  | nil => exact (List.append_nil _).symm
  | cons r requests ih =>
    show ((t.answer r).2.after requests).relocations.symbols.toList = _
    rw [ih, relocations_answer, SymbolTable.toList_symbols_pushIfAny, List.append_assoc, sites]

/-- Assembling an instruction is asking for its word. -/
theorem answer_translate_eq_advance (a : Assembly) (p : Placed) :
    ((⟨a.labels, a.relocations⟩ : Tables).answer (.translate p.instruction p.address)).2 =
      ⟨(Assembly.pass.advance a p).labels, (Assembly.pass.advance a p).relocations⟩ := by
  rw [answer, Assembly.advance_pass]
  cases p.instruction.emit p.address a.labels a.relocations <;> rfl

/-- A pass over placed instructions that keeps going asks for one word after the other. -/
theorem after_eq_walk (a : Assembly) (placed : List Placed) :
    (⟨a.labels, a.relocations⟩ : Tables).after
        (placed.map fun p => .translate p.instruction p.address) =
      ⟨(Assembly.pass.walk true 0 placed a #[] #[]).state.labels,
        (Assembly.pass.walk true 0 placed a #[] #[]).state.relocations⟩ := by
  rw [(Pass.walk_keepGoing Assembly.neverFatal_pass placed 0 a #[] #[]).1]
  induction placed generalizing a with
  | nil => rfl
  | cons p placed ih =>
    rw [List.map_cons, after, List.foldl_cons, answer_translate_eq_advance, List.foldl_cons]
    exact ih _

end Tables

/-! ### Programs -/

namespace Layout

theorem pairwise_address_placements (base : Nat) (lines : List Line) :
    (placements base lines).Pairwise fun p p' => p.address < p'.address := by
  rw [List.pairwise_iff_getElem]
  intro j k hj hk hlt
  rw [address_of_getElem?_placements (List.getElem?_eq_getElem hj),
    address_of_getElem?_placements (List.getElem?_eq_getElem hk)]
  omega

/-- Each instruction of a layout stands where its position says. -/
theorem filterMap_site?_placements (base : Nat) (lines : List Line) :
    (placements base lines).filterMap (fun p => p.instruction.site? p.address) =
      (placements base lines).zipIdx.filterMap
        fun x => x.1.instruction.site? (base + 4 * x.2) := by
  conv_lhs => rw [← List.zipIdx_map_fst 0 (placements base lines), List.filterMap_map]
  refine List.filterMap_congr fun x hx => ?_
  have hget := List.mem_zipIdx_iff_getElem?.mp hx
  rw [Function.comp_apply, address_of_getElem?_placements hget]

end Layout

namespace Assembly

variable {labels : SymbolTable} {placed : List Placed}

/-- The sites of an assembly are those of its instructions. -/
theorem filterMap_relocation_eq (h : Admissible labels placed) :
    placed.filterMap (fun p => (p.emission labels).relocation) =
      placed.filterMap fun p => p.instruction.site? p.address := by
  refine List.filterMap_congr fun p hp => ?_
  obtain ⟨e, he⟩ := h p hp
  rw [Placed.emission_of_emit he, Instruction.relocation_of_emit he]

end Assembly

/-- Whether a table of sites is that of the jumps of a layout which starts at `base`: each jump has one
label as its operand, and the table has one entry for each jump, in order. -/
structure SymbolTable.RecordsJumps (base : Nat) (layout : Layout) (t : SymbolTable) : Prop where
  operand : ∀ p ∈ layout.instructions.toList, p.instruction.IsJump →
    ∃ name, p.instruction.operands = [name] ∧ Operand.isLabel name.toList
  symbols : t.symbols.toList = layout.instructions.toList.zipIdx.filterMap
    fun x => x.1.instruction.site? (base + 4 * x.2)
  addresses : t.symbols.toList.Pairwise fun s s' => s.address < s'.address
  names : ∀ s ∈ t.symbols.toList, Operand.isLabel s.name.toList

namespace Program

theorem recordsJumps_of_assemble {text : String} {options : Options} {assembly : Assembly}
    (h : (assemble text options).run.value = .ok assembly) :
    ∃ layout, (layOut text options).run.value = .ok layout ∧
      assembly.relocations.RecordsJumps options.base.toNat layout := by
  obtain ⟨lines, layout, -, hlayOut, -, rfl, hadmissible, rfl⟩ := assemble_closedForm h
  -- Every jump has succeeded, so it has one operand, and that is a label.
  have hoperand : ∀ p ∈ Layout.placements options.base.toNat lines, p.instruction.IsJump →
      ∃ name, p.instruction.operands = [name] ∧ Operand.isLabel name.toList := by
    intro p hp hjump
    obtain ⟨e, he⟩ := hadmissible p hp
    obtain ⟨code, name, -, hoperands, hlabel, -⟩ := Instruction.jump_of_emit hjump he
    exact ⟨name, hoperands, hlabel⟩
  have hsymbols := Assembly.filterMap_relocation_eq hadmissible
  refine ⟨_, hlayOut, hoperand, ?_, ?_, ?_⟩
  · exact hsymbols.trans (Layout.filterMap_site?_placements _ _)
  · show List.Pairwise _ (List.filterMap _ _)
    rw [hsymbols]
    -- Sites are at the addresses of their jumps, and addresses grow.
    refine (Layout.pairwise_address_placements _ lines).filterMap _ ?_
    intro p p' hlt s hs s' hs'
    rw [(Instruction.site?_eq_some_iff.mp hs).2.2, (Instruction.site?_eq_some_iff.mp hs').2.2]
    exact hlt
  · intro s hs
    have hmem : s ∈ List.filterMap _ _ := hs
    rw [hsymbols] at hmem
    obtain ⟨p, hp, hsite⟩ := List.mem_filterMap.mp hmem
    obtain ⟨hjump, hhead, -⟩ := Instruction.site?_eq_some_iff.mp hsite
    obtain ⟨name, hoperands, hlabel⟩ := hoperand p hp hjump
    rw [hoperands] at hhead
    rwa [← Option.some_inj.mp hhead]

/-- **Relocation sites are the jumps.**  A request for a word that is refused leaves the sites alone,
and so does one for anything but a jump; a jump enters its label at its own address, and gives a word
that depends on no label.  After any sequence of requests the sites are those of the jumps that had a
word, behind the sites before, and a pass over instructions is such a sequence.  The sites of an
assembly are the jumps of its layout, each with the address of its position. -/
theorem relocations_are_the_jumps :
    (∀ (t : Tables) (i : Instruction) (address : Nat),
      Tables.Effect i address t.relocations (t.answer (.translate i address)).1
        (t.answer (.translate i address)).2.relocations) ∧
    (∀ (i : Instruction) (address : Nat) (labels labels' relocations : SymbolTable), i.IsJump →
      i.emit address labels relocations = i.emit address labels' relocations) ∧
    (∀ (t : Tables) (requests : List Tables.Request),
      (t.after requests).relocations.symbols.toList =
        t.relocations.symbols.toList ++ t.sites requests) ∧
    (∀ (a : Assembly) (placed : List Placed),
      (⟨a.labels, a.relocations⟩ : Tables).after
          (placed.map fun p => .translate p.instruction p.address) =
        ⟨(Assembly.pass.walk true 0 placed a #[] #[]).state.labels,
          (Assembly.pass.walk true 0 placed a #[] #[]).state.relocations⟩) ∧
    ∀ (text : String) (options : Options) (assembly : Assembly),
      (assemble text options).run.value = .ok assembly →
      ∃ layout, (layOut text options).run.value = .ok layout ∧
        assembly.relocations.RecordsJumps options.base.toNat layout := by
  refine ⟨Tables.effect_translate, ?_, Tables.symbols_relocations_after, Tables.after_eq_walk, ?_⟩
  · intro i address labels labels' relocations hjump
    exact Instruction.emit_jump_congr hjump
  · intro text options assembly h
    exact recordsJumps_of_assemble h

/-- Jumps to a name that is defined nowhere and to one that is, around a branch.  Where `main` is
defined has no part in the word of the second jump. -/
theorem relocations_are_the_jumps_around_branch :
    let text := "main: jal f\nj main\nbne $v0, $0, main\njal f"
    ∃ assembly layout,
      (assemble text { base := 0x400000#32 }).run.value = .ok assembly ∧
      assembly.relocations.symbols =
        #[⟨"f", 0x400000⟩, ⟨"main", 0x400004⟩, ⟨"f", 0x40000C⟩] ∧
      (layOut text { base := 0x400000#32 }).run.value = .ok layout ∧
      assembly.relocations.RecordsJumps 0x400000 layout ∧
      (⟨"j", ["main"]⟩ : Instruction).emit 0x400004 assembly.labels (.empty .repeating) =
        (⟨"j", ["main"]⟩ : Instruction).emit 0x400004 (.empty .distinct) (.empty .repeating) := by
  intro text
  have h : (assemble text { base := 0x400000#32 }).run.value =
      .ok ⟨#[0x0C000000#32, 0x08000000#32, 0x1440FFFD#32, 0x0C000000#32],
        ⟨.distinct, #[⟨"main", 0x400000⟩]⟩,
        ⟨.repeating, #[⟨"f", 0x400000⟩, ⟨"main", 0x400004⟩, ⟨"f", 0x40000C⟩]⟩⟩ := by
    cbv
  obtain ⟨-, hlabels, -, -, hassembly⟩ := relocations_are_the_jumps
  obtain ⟨layout, hlayout, hrecords⟩ := hassembly _ _ _ h
  exact ⟨_, layout, h, rfl, hlayout, hrecords, hlabels _ _ _ _ _ (.inl rfl)⟩

end Program

end MipsAssembler

/-
Where the branches of a program lead.

A branch holds the distance from the word after it to its target, and a label the address of its line.
Both count from the same base, so in the assembly of a whole program the distance from the branch to
the line with its label is a number of words, whatever lines stand between them:

* `Instruction.branch_of_emit` — what the word of a single branch holds;
* `Program.branch_lands_on_label` — every branch of an assembled program lands on the line that
  defines its label.
-/
import Mathlib
import MipsAssembler.Proofs.ProgramForm
import MipsAssembler.Proofs.Translation

namespace MipsAssembler

/-- The word of a branch holds the distance to the label that its third operand names. -/
theorem Instruction.branch_of_emit {i : Instruction} {address : Nat}
    {labels relocations : SymbolTable} {e : Emission}
    (hmnemonic : i.mnemonic = "beq" ∨ i.mnemonic = "bne")
    (h : i.emit address labels relocations = .ok e) :
    ∃ s t name code rs rt offset target, i.operands = [s, t, name] ∧
      Op.decode e.word = some (.branch code rs rt offset) ∧
      (Mnemonic.branch code).text = i.mnemonic ∧ labels.lookup name = .ok target ∧
      (address : Int) + 4 + 4 * offset.toInt = (target : Nat) := by
  obtain ⟨m, op, hm, hop, hword⟩ := exists_of_emit h
  have hbranch : ∃ code, m = .branch code := by
    rcases hmnemonic with hbeq | hbne
    · rw [hbeq] at hm
      exact ⟨.beq, (Option.some.inj hm).symm⟩
    · rw [hbne] at hm
      exact ⟨.bne, (Option.some.inj hm).symm⟩
  obtain ⟨code, rfl⟩ := hbranch
  obtain ⟨hkind, hspelled⟩ := Mnemonic.isSpelled_of_resolve hop
  generalize i.operands = operands at hspelled ⊢
  -- Operands of another format would belong to an operation of another kind.
  cases hspelled with
  | branch hs ht hname hlookup hoffset =>
    obtain rfl := Mnemonic.branch.inj hkind
    exact ⟨_, _, _, _, _, _, _, _, rfl, Op.decode_of_encode hword, Mnemonic.text_of_ofText? hm,
      hlookup, hoffset⟩
  | _ => cases hkind

namespace Program

/-- Whether the branch `p`, word `i` of an assembly, lands where its label stands: its third operand
is the label of one line, and the offset, counted from the word after the branch, leads to where the
words of that line start. -/
def LandsOnLabel (lines : List Line) (layout : Layout) (assembly : Assembly) (i : Nat)
    (p : Placed) : Prop :=
  ∃ s t name k code rs rt offset, p.instruction.operands = [s, t, name] ∧
    (∀ j, lines[j]?.bind Line.label = some name ↔ j = k) ∧
    assembly.words[i]?.bind Op.decode = some (.branch code rs rt offset) ∧
    (Mnemonic.branch code).text = p.instruction.mnemonic ∧
    (i : Int) + 1 + offset.toInt = ((layout.wordCounts.toList.take k).sum : Nat)

/-- **Branches land on their labels.**  An assembled program has one word for each instruction of its
layout, and each branch among them leads to the one line that defines its label. -/
theorem branch_lands_on_label (text : String) (options : Options) (assembly : Assembly)
    (h : (assemble text options).run.value = .ok assembly) :
    ∃ lines layout, Source.parse text = .ok lines ∧
      (layOut text options).run.value = .ok layout ∧
      assembly.words.size = layout.instructions.size ∧
      ∀ (i : Nat) (p : Placed), layout.instructions[i]? = some p →
        p.instruction.mnemonic = "beq" ∨ p.instruction.mnemonic = "bne" →
        LandsOnLabel lines layout assembly i p := by
  obtain ⟨lines, layout, hlines, hlayOut, hadmissible, rfl, hemits, rfl⟩ := assemble_closedForm h
  refine ⟨lines, _, hlines, hlayOut, by simp [Assembly.closedForm], ?_⟩
  intro i p hp hmnemonic
  rw [← Array.getElem?_toList] at hp
  obtain ⟨e, he⟩ := hemits p (List.mem_of_getElem? hp)
  obtain ⟨s, t, name, code, rs, rt, offset, target, hoperands, hdecode, htext, hlookup, hoffset⟩ :=
    Instruction.branch_of_emit hmnemonic he
  -- The entry that the branch found is that of some line.
  obtain ⟨k, hk, htarget⟩ :=
    Layout.exists_of_mem_entries (SymbolTable.mem_of_lookup hlookup)
  refine ⟨s, t, name, k, code, rs, rt, offset, hoperands, ?_, ?_, htext, ?_⟩
  · intro j
    -- No other line has this label, since labels are distinct.
    refine ⟨fun hj => hadmissible.eq_of_label hj hk, ?_⟩
    rintro rfl
    exact hk
  · rw [Assembly.getElem?_words_closedForm hp he]
    exact hdecode
  · -- Branch and label are both at whole words from the base, which cancels.
    have haddress : p.address = options.base.toNat + 4 * i :=
      Layout.address_of_getElem?_placements hp
    have hsum : ((Layout.closedForm options.base.toNat lines).wordCounts.toList.take k).sum =
        Line.totalWords (lines.take k) := by
      rw [Line.totalWords, List.map_take]
      rfl
    rw [haddress] at hoffset
    rw [hsum]
    dsimp only at htarget
    omega

/-- A branch forwards and one backwards, both across instructions of more than one word. -/
theorem branch_lands_on_label_across_pseudo :
    ∃ assembly,
      (assemble "a: blt $t0, $t1, b\nli $t2, 100000\nb: bne $t0, $0, a\n" {}).run.value =
        .ok assembly ∧
      assembly.words = #[0x0109082A#32, 0x14200002#32, 0x3C0A0001#32, 0x354A86A0#32,
        0x1500FFFB#32] ∧
      ∃ lines layout,
        (layOut "a: blt $t0, $t1, b\nli $t2, 100000\nb: bne $t0, $0, a\n" {}).run.value =
          .ok layout ∧
        LandsOnLabel lines layout assembly 1 ⟨⟨"bne", ["$at", "$zero", "b"]⟩, 4, 1⟩ ∧
        LandsOnLabel lines layout assembly 4 ⟨⟨"bne", ["$t0", "$0", "a"]⟩, 16, 3⟩ := by
  have hassemble :
      (assemble "a: blt $t0, $t1, b\nli $t2, 100000\nb: bne $t0, $0, a\n" {}).run.value =
        .ok { words := #[0x0109082A#32, 0x14200002#32, 0x3C0A0001#32, 0x354A86A0#32,
                0x1500FFFB#32]
              labels := ⟨.distinct, #[⟨"a", 0⟩, ⟨"b", 16⟩]⟩ } := by
    cbv
  have hlayout :
      (layOut "a: blt $t0, $t1, b\nli $t2, 100000\nb: bne $t0, $0, a\n" {}).run.value =
        .ok { next := 20
              instructions := #[⟨⟨"slt", ["$at", "$t0", "$t1"]⟩, 0, 1⟩,
                ⟨⟨"bne", ["$at", "$zero", "b"]⟩, 4, 1⟩, ⟨⟨"lui", ["$t2", "1"]⟩, 8, 2⟩,
                ⟨⟨"ori", ["$t2", "$t2", "34464"]⟩, 12, 2⟩, ⟨⟨"bne", ["$t0", "$0", "a"]⟩, 16, 3⟩]
              wordCounts := #[2, 2, 1]
              labels := ⟨.distinct, #[⟨"a", 0⟩, ⟨"b", 16⟩]⟩ } := by
    cbv
  obtain ⟨lines, layout, -, hlayOut, -, hlands⟩ := branch_lands_on_label _ _ _ hassemble
  obtain rfl := Except.ok.inj (hlayout.symm.trans hlayOut)
  exact ⟨_, hassemble, rfl, lines, _, hlayout, hlands 1 _ rfl (.inr rfl),
    hlands 4 _ rfl (.inr rfl)⟩

end Program

end MipsAssembler

import PktBaffle.Pkttap.Attach
import PktBaffle.Proofs.Classic.Valid

namespace PktBaffle.Proofs.Optimizer
open Bpf PktBaffle.Optimizer

theorem threadJumps_codes (insns : List Insn) :
    (threadJumps insns).map (·.code) = insns.map (·.code) := by
  apply List.ext_getElem?
  intro n
  rw [List.getElem?_map, List.getElem?_map]
  cases hn : insns[n]? with
  | none =>
    have hlen := List.getElem?_eq_none_iff.mp hn
    rw [List.getElem?_eq_none (by rwa [threadJumps_length])]
  | some i =>
    rw [threadJumps_get hn]
    exact congrArg some (threadInsn_code _ n i)

/-- A pass over a list that leaves elements out keeps the order of the others. -/
theorem filterMap_sublist {α β : Type} (f : α → Option β) (g : β → UInt16) (h : α → UInt16)
    (hf : ∀ a b, f a = some b → g b = h a) (l : List α) :
    ((l.filterMap f).map g).Sublist (l.map h) := by
  induction l with
  | nil => exact .slnil
  | cons a l ih =>
    rw [List.filterMap_cons, List.map_cons]
    cases hb : f a with
    | none => exact ih.cons _
    | some b =>
      rw [List.map_cons, hf a b hb]
      exact ih.cons_cons _

theorem removeUnkept_codes (insns : List Insn) (keep : List Bool) :
    ((removeUnkept insns keep).map (·.code)).Sublist (insns.map (·.code)) := by
  unfold removeUnkept
  split
  · exact .refl _
  · have hzip : insns.map (·.code) = insns.zipIdx.map fun p => p.1.code := by
      have hfst := congrArg (List.map (·.code)) (List.zipIdx_map_fst 0 insns)
      rw [List.map_map] at hfst
      exact hfst.symm
    rw [hzip]
    apply filterMap_sublist
    rintro ⟨i, n⟩ j hj
    dsimp only at hj
    split at hj
    · cases hj
      exact renumber_code keep n i
    · cases hj

/-- The passes leave instructions out and move none. -/
theorem optimize_codes (insns : List Insn) :
    ((optimize insns).map (·.code)).Sublist (insns.map (·.code)) := by
  rw [← threadJumps_codes insns]
  exact removeUnkept_codes _ _

end PktBaffle.Proofs.Optimizer

namespace PktBaffle.Proofs.Classic
open Bpf Forward PktBaffle.Classic PktBaffle.Optimizer PktBaffle.Proofs.Optimizer

theorem shaped_not_ret {a : Cell Insn Slot} (h : shaped a = true) : isRet a.insn = false := by
  obtain ⟨i, _ | ⟨_ | _ | _, t⟩⟩ := a
  · obtain ⟨-, -, hr⟩ := plain_code h
    simpa [isRet] using hr
  · exact isCond_not_ret (branch_code (Bool.and_eq_true_iff.mp h).1).2
  · exact isCond_not_ret (branch_code (Bool.and_eq_true_iff.mp h).1).2
  · exact isJa_not_ret (ja_code h).2

/-- The two returns of a compiled program are its last instructions. -/
theorem compiled_returns {e : Expr} {link : LinkType} {insns : List Insn}
    (hc : compile e link = .ok insns) {n : Nat} {i : Insn} (hi : insns[n]? = some i)
    (hr : isRet i = true) : insns.length ≤ n + 2 := by
  obtain ⟨hl, rfl⟩ := compileWith_ok.mp hc
  have hsub := optimize_codes (assembled .hoist e link)
  have hsplit : (assembled .hoist e link).map (·.code) =
      (Frag.resolve .failure 1 (Frag.resolve .success 0 (asm .hoist e (Ctx.start link)).1.code)).map
        (fun a => a.insn.code) ++ [(Insn.retK bpfAccept).code, (Insn.retK bpfDrop).code] := by
    unfold assembled program
    simp only [List.map_append, List.map_map, ops]
    refine congrArg₂ (· ++ ·) (List.map_congr_left fun a _ => raw_code a) rfl
  rw [hsplit, List.sublist_append_iff] at hsub
  obtain ⟨codes, ends, heq, hcodes, hends⟩ := hsub
  have hlen : (optimize (assembled .hoist e link)).length = codes.length + ends.length := by
    rw [← List.length_append, ← heq, List.length_map]
  have htwo : ends.length ≤ 2 := hends.length_le
  by_contra hfar
  have hn : n < codes.length := by omega
  have hcode : codes[n]? = some i.code := by
    have hget := congrArg (·[n]?) heq
    simp only [List.getElem?_map, hi, List.getElem?_append_left hn] at hget
    exact hget.symm
  obtain ⟨a, ha, hae⟩ := List.mem_map.mp (hcodes.subset (List.mem_of_getElem? hcode))
  have hsolid := (solid_asm .hoist e (Ctx.start link)).shaped
  have hret := shaped_not_ret (shaped_blind.resolve (shaped_blind.resolve hsolid _ _) _ _ a ha)
  rw [isRet_congr hae, hr] at hret
  cases hret

end PktBaffle.Proofs.Classic

namespace PktBaffle.Pkttap
open Bpf PktBaffle.Classic PktBaffle.Optimizer PktBaffle.Proofs.Classic

/-- The check a kernel makes of every filter before it runs one. -/
def endsInRet (insns : List Insn) : Bool := insns.getLast?.any isRet

section Attach

variable {e : Expr} {link : LinkType} {insns : List Insn}

theorem compiled_endsInRet (hc : compile e link = .ok insns) : endsInRet insns = true := by
  obtain ⟨last, hlast, hret⟩ := (compiled_wellFormed hc).ret
  unfold endsInRet
  rw [hlast]
  exact hret

/-- A length cut to some bits leaves the whole program, or a piece that does not end in a
return. -/
theorem cut_endsInRet (hc : compile e link = .ok insns) {size : Nat} (hs : 2 ≤ size) :
    endsInRet (insns.take (insns.length % size)) = true ↔
      insns.take (insns.length % size) = insns := by
  constructor
  · intro hend
    by_cases hfit : insns.length < size
    · rw [Nat.mod_eq_of_lt hfit]
      exact List.take_length
    · exfalso
      set n := insns.length % size with hn
      have hshort : n + 2 ≤ insns.length := by
        have hdiv := Nat.mod_add_div insns.length size
        have hq : 1 ≤ insns.length / size := (Nat.one_le_div_iff (by omega)).mpr (by omega)
        have hmul := Nat.mul_le_mul_left size hq
        omega
      unfold endsInRet at hend
      cases hlast : (insns.take n).getLast? with
      | none =>
        rw [hlast] at hend
        cases hend
      | some i =>
        rw [hlast] at hend
        have hpos : 0 < n := by
          rcases Nat.eq_zero_or_pos n with h0 | hpos
          · rw [h0, List.take_zero] at hlast
            cases hlast
          · exact hpos
        have hget : insns[n - 1]? = some i := by
          rw [List.getLast?_eq_getElem?, List.length_take, Nat.min_eq_left (by omega),
            List.getElem?_take_of_lt (by omega)] at hlast
          exact hlast
        have hle := compiled_returns hc hget hend
        omega
  · intro heq
    rw [heq]
    exact compiled_endsInRet hc

/-- However long a compiled filter is, the instructions a kernel is given either are the whole
filter or do not end in a return, and the kernel refuses those: no host ever filters by a piece
of a program. -/
theorem attach_whole_or_refused (e : Expr) (link : LinkType) (insns : List Insn)
    (hc : compile e link = .ok insns) :
    (endsInRet (sockFprog insns).read = true ↔ (sockFprog insns).read = insns) ∧
      (endsInRet (bpfProgram insns).read = true ↔ (bpfProgram insns).read = insns) := by
  constructor
  · have hread : (sockFprog insns).read = insns.take (insns.length % 2 ^ 16) := by
      unfold SockFprog.read sockFprog
      rw [UInt16.toNat_ofNat']
    rw [hread]
    exact cut_endsInRet hc (by omega)
  · have hread : (bpfProgram insns).read = insns.take (insns.length % 2 ^ 32) := by
      unfold BpfProgram.read bpfProgram
      rw [UInt32.toNat_ofNat']
    rw [hread]
    exact cut_endsInRet hc (by omega)

theorem attach_whole_or_refused_web : ∃ insns, compile webOrDns .ethernet = .ok insns ∧
    (sockFprog insns).read = insns := by
  have hrun : (compile webOrDns .ethernet).toOption.map
      (fun insns => endsInRet (sockFprog insns).read) = some true := by decide +kernel
  cases hc : compile webOrDns .ethernet with
  | error err =>
    rw [hc] at hrun
    cases hrun
  | ok insns =>
    rw [hc] at hrun
    have hend : endsInRet (sockFprog insns).read = true := Option.some.inj hrun
    exact ⟨insns, rfl, (attach_whole_or_refused webOrDns .ethernet insns hc).1.mp hend⟩

end Attach

end PktBaffle.Pkttap

import MultibyteRegex.Proofs.Folding
import MultibyteRegex.Proofs.Safety

/-!
# 大文字と小文字を区別しない検索

どの旗の範囲でも区別しない木からは、同じとみなす文字を見分けない命令と手がかりだけが得られる。写して等しい
二つの本文は、同じ候補を同じ順に試し、同じ答えになる。
-/

namespace MultibyteRegex

/-! ## 木 -/

namespace Node

mutual
/-- 数値で書いたバイト列がなく、どの旗の範囲でも大文字と小文字を区別しない。 -/
def isCaseless : Node → Bool
  | .list nodes => allCaseless nodes
  | .alt nodes => allCaseless nodes
  | .raw _ => false
  | .loop _ body => body.isCaseless
  | .scoped inner body => inner.contains .ignoreCase && body.isCaseless
  | .group _ body => body.isCaseless
  | _ => true

def allCaseless : List Node → Bool
  | [] => true
  | n :: ns => n.isCaseless && allCaseless ns
end

variable {options : Options}

theorem allCaseless_iff {ns : List Node} : allCaseless ns ↔ ∀ n ∈ ns, n.isCaseless := by
  induction ns with
  | nil => simp [allCaseless]
  | cons n ns ih => simp [allCaseless, ih]

theorem isCaseless_rebuildLoop (l : Loop) {body : Node} (h : body.isCaseless) :
    (rebuildLoop options l body).isCaseless := by
  unfold rebuildLoop
  dsimp only
  repeat' split
  all_goals first | rfl | exact h

theorem allCaseless_linkHeads (ns : List Node) : allCaseless (linkHeads options ns) = allCaseless ns := by
  fun_induction linkHeads options ns with
  | case1 l body n ns next ih => simp only [allCaseless, isCaseless, ih]
  | case2 n ns _ ih => simp only [allCaseless, ih]
  | case3 => rfl

theorem allCaseless_map {kind : GroupKind} {ns : List Node} (h : ∀ n ∈ ns, n.isCaseless) :
    allCaseless (ns.map (.group kind)) := by
  refine allCaseless_iff.2 fun n hn => ?_
  obtain ⟨k, hk, rfl⟩ := List.mem_map.1 hn
  exact h k hk

variable {env : PrepareEnv}

mutual
/-- 書き換えは、区別しないことを変えない。 -/
theorem Prepares.isCaseless {options : Options} {undo : Bool} {n n' : Node} (h : Prepares env options undo n n')
    (hn : n.isCaseless) : n'.isCaseless :=
  match h, hn with
  | .empty, _ | .str _, _ | .word _, _ | .any, _ | .anchor _, _ | .backref _, _ | .cclass .., _
  | .closed .., _ => rfl
  | .raw _, hn => by cases hn
  | .list h, hn => (allCaseless_linkHeads _).trans (allCaseless_iff.2 (h.isCaseless hn))
  | .alt h, hn => allCaseless_iff.2 (h.isCaseless hn)
  | .scoped _ h, hn => by
    obtain ⟨hinner, hbody⟩ := Bool.and_eq_true_iff.1 hn
    exact Bool.and_eq_true_iff.2 ⟨hinner, h.isCaseless hbody⟩
  | .loop l h, hn => isCaseless_rebuildLoop l (h.isCaseless hn)
  | .capture _ _ h, hn | .ahead h, hn | .notAhead h, hn | .atomic h, hn | .behind _ _ h, hn
  | .notBehind _ _ h, hn => by
    have hbody := h.isCaseless hn
    exact hbody
  | .behindEach _ _ h, hn | .notBehindEach _ _ h, hn => allCaseless_map (h.isCaseless hn)

theorem PreparesAll.isCaseless {options : Options} {undo : Bool} {ns ns' : List Node}
    (h : PreparesAll env options undo ns ns') (hn : allCaseless ns) : ∀ n' ∈ ns', n'.isCaseless :=
  match h, hn with
  | .nil, _ => List.forall_mem_nil _
  | .cons h hs, hn => by
    obtain ⟨hn, hns⟩ := Bool.and_eq_true_iff.1 hn
    exact List.forall_mem_cons.2 ⟨h.isCaseless hn, hs.isCaseless hns⟩
end

theorem isCaseless_prepare {n n' : Node} (hn : n.isCaseless) (h : n.prepare env options = .ok n') :
    n'.isCaseless := (prepares_of_prepare h).isCaseless hn

/-- 区別しない節には、先頭バイトの手がかりがない。 -/
theorem headByte_of_isCaseless : (n : Node) → {options : Options} → options.contains .ignoreCase →
    n.isCaseless → n.headByte options = none
  | .list (n :: _), _, hi, h => headByte_of_isCaseless n hi (Bool.and_eq_true_iff.1 h).1
  | .str _, _, hi, _ => if_pos hi
  | .loop l body, _, hi, h => by
    rw [headByte, headByte_of_isCaseless body hi h, ite_self]
  | .scoped _ body, _, _, h =>
    headByte_of_isCaseless body (Bool.and_eq_true_iff.1 h).1 (Bool.and_eq_true_iff.1 h).2
  | .group (.capture _ _) body, _, hi, h | .group .atomic body, _, hi, h
  | .group .ahead body, _, hi, h => headByte_of_isCaseless body hi h
  | .group .notAhead _, _, _, _ | .group .behind _, _, _, _ | .group .notBehind _, _, _, _
  | .list [], _, _, _ | .empty, _, _, _ | .alt _, _, _, _ | .cclass _, _, _, _ | .word _, _, _, _
  | .any, _, _, _ | .anchor _, _, _, _ | .backref _, _, _, _ => rfl
  | .raw _, _, _, h => by cases h

theorem next?_of_readyList {t : FoldTable} {n : Node} {ns : List Node} (hi : options.contains .ignoreCase)
    (hns : allCaseless ns) (h : ReadyList t options (n :: ns)) : n.next? = none := by
  refine Option.eq_none_iff_forall_ne_some.2 fun b hb => ?_
  have hhead := h.1 b hb
  cases ns with
  | nil => cases hhead
  | cons n' ns =>
    rw [List.head?_cons, Option.bind_some, headByte_of_isCaseless n' hi (Bool.and_eq_true_iff.1 hns).1] at hhead
    cases hhead

end Node

/-! ## 命令 -/

namespace Literal

theorem width_runs {cs : List (List UInt8)} {k : Nat} (h : ∀ c ∈ cs, c.length = k) :
    ∀ r ∈ runs cs, r.1 = k := by
  induction cs with
  | nil => exact fun r hr => by cases hr
  | cons c cs ih =>
    obtain ⟨hc, hcs⟩ := List.forall_mem_cons.1 h
    have hrest := ih hcs
    unfold runs
    split
    · rename_i width bytes more hruns
      rw [hruns] at hrest
      obtain ⟨hwidth, hmore⟩ := List.forall_mem_cons.1 hrest
      split
      · exact List.forall_mem_cons.2 ⟨hwidth, hmore⟩
      · exact List.forall_mem_cons.2 ⟨hc, hrest⟩
    · exact List.forall_mem_singleton.2 hc

/-- 一バイトの文字は、どれも写して比べる。 -/
theorem isCaseless_code (bytes : List UInt8) : ∀ i ∈ code .ascii (some .ascii) bytes, i.IsCaseless := by
  intro i hi
  obtain ⟨r, hr, rfl⟩ := List.mem_map.1 hi
  rw [Encoding.chars_ascii] at hr
  have hwidth : r.1 = 1 := width_runs (k := 1) (by simp) r hr
  simp only [instruction, hwidth, if_true]
  trivial

end Literal

namespace CodeEnv

variable {env : CodeEnv}

mutual
/-- 区別しない節からは、同じとみなす文字を見分けない命令しか生成しない。 -/
theorem emit_caseless (henc : env.encoding = .ascii) (hfold : env.fold = some .ascii) :
    (n : Node) → {options : Options} → options.contains .ignoreCase → n.isCaseless →
    n.Ready .ascii options → n.next? = none → (env.emit options n).Only Instruction.IsCaseless
  | .list ns, _, hi, hn, h, _ => emitList_caseless henc hfold ns hi hn h
  | .alt ns, _, hi, hn, h, _ => emitAlt_caseless henc hfold ns hi hn h
  | .scoped _ body, _, _, hn, h, _ =>
    emit_caseless henc hfold body (Bool.and_eq_true_iff.1 hn).1 (Bool.and_eq_true_iff.1 hn).2 h.2 h.1
  | .loop l body, options, hi, hn, h, hnext => by
    obtain ⟨-, hhead, -, hbnext, hready⟩ := h
    have hbody := emit_caseless henc hfold body hi hn hready hbnext
    have hhead : l.head = none := Option.eq_none_iff_forall_ne_some.2 fun b hb => by
      have := hhead b hb
      rw [Node.headByte_of_isCaseless body hi hn] at this
      cases this
    have hnext : l.next = none := hnext
    refine emit_loop_only (fun _ => Instruction.isCaseless_of_isControl) hbody (fun addr => ?_) fun newline => hnext
    rw [Emit.enter, hhead, hnext]
    trivial
  | .group kind body, options, hi, hn, h, _ => by
    have hbody : body.next? = none ∧ body.Ready .ascii options := by
      cases kind with
      | notAhead | notBehind => exact h.2
      | _ => exact h
    exact emit_group_only (fun _ => Instruction.isCaseless_of_isControl)
      (emit_caseless henc hfold body hi hn hbody.2 hbody.1) fun _ _ _ => ⟨trivial, trivial⟩
  | .str bytes, options, hi, _, _, _ => by
    intro c c' code hc
    have hf : env.foldFor options = .ok (some .ascii) := by
      simp only [foldFor, hi, if_true, hfold]
    obtain ⟨fold, hfold, hc⟩ := Except.bind_eq_ok hc
    cases hf.symm.trans hfold
    cases hc
    rw [henc]
    exact Literal.isCaseless_code bytes
  | .raw _, _, _, hn, _, _ => by cases hn
  | .cclass c, _, hi, _, h, _ => by
    refine .instr ?_
    have hc : c.bytes.IsCaseless := CharClass.isCaseless_of_closeFold (h hi)
    rw [henc]
    exact hc
  | .anchor a, _, _, _, _, _ => .instr (by cases a <;> trivial)
  | .backref _, _, hi, _, _, _ => .instr hi
  | .empty, _, _, _, _, _ => .nil
  | .word _, _, _, _, _, _ | .any, _, _, _, _, _ => .instr trivial

theorem emitList_caseless (henc : env.encoding = .ascii) (hfold : env.fold = some .ascii) :
    (ns : List Node) → {options : Options} → options.contains .ignoreCase →
    Node.allCaseless ns → Node.ReadyList .ascii options ns →
    Emit.Only Instruction.IsCaseless (env.emitList options ns)
  | [], _, _, _, _ => .nil
  | n :: ns, _, hi, hn, h => by
    obtain ⟨hcn, hcns⟩ := Bool.and_eq_true_iff.1 hn
    have hnext := Node.next?_of_readyList hi hcns h
    exact (emit_caseless henc hfold n hi hcn h.2.1 hnext).append (emitList_caseless henc hfold ns hi hcns h.2.2)

theorem emitAlt_caseless (henc : env.encoding = .ascii) (hfold : env.fold = some .ascii) :
    (ns : List Node) → {options : Options} → options.contains .ignoreCase →
    Node.allCaseless ns → Node.ReadyAlt .ascii options ns →
    Emit.Only Instruction.IsCaseless (env.emitAlt options ns)
  | [], _, _, _, _ => .nil
  | [n], _, hi, hn, h => emit_caseless henc hfold n hi (Bool.and_eq_true_iff.1 hn).1 h.2.2.1 h.2.1
  | n :: m :: ns, _, hi, hn, h => by
    obtain ⟨hcn, hcns⟩ := Bool.and_eq_true_iff.1 hn
    exact emitAlt_cons_only (fun _ => Instruction.isCaseless_of_isControl)
      (emit_caseless henc hfold n hi hcn h.2.2.1 h.2.1) (emitAlt_caseless henc hfold (m :: ns) hi hcns h.2.2.2)
end

theorem compile_caseless (henc : env.encoding = .ascii) (hfold : env.fold = some .ascii)
    {options : Options} {groups : Nat} {root : Node} {program : Program}
    (h : env.compile options groups root = .ok program) (hi : options.contains .ignoreCase)
    (hroot : root.isCaseless) (hready : root.Prepared .ascii options false) : program.IsCaseless := by
  have hcode := compile_only (fun _ => Instruction.isCaseless_of_isControl) h
    (emit_caseless henc hfold root hi hroot hready.ready hready.next)
  obtain ⟨size, code, counters, -, -, rfl⟩ := compile_eq_ok h
  exact ⟨henc, by dsimp only; rw [hfold]; rfl, hcode⟩

end CodeEnv

end MultibyteRegex

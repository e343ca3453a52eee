import TapeLang.Library
import TapeLang.Proofs.Expansion.Code
import TapeLang.Proofs.Expansion.Enlarged
import TapeLang.Proofs.Peephole.NormalForm
import TapeLang.Proofs.Printing

/-!
# What is built of a library

Each pass over the tokens of a text does away with one kind of token.  Behind the first pass no
repeat is left (`count?_of_expandRepeats`), behind the second one no call (`callee?_of_expanded`),
and so only code is joined: no answer to a call is that a token was left over
(`not_ofLeftover_of_expands`).

What is built is the code of the entry text, reduced.  Nothing in it is a comment, and so the
program that is read from it has this very text.

Main statement: `assembled_and_program_iff`, on the answers to calls, what is built and the program.
-/

namespace TapeLang

/-- The error is that a token was left over that is no code. -/
def Error.OfLeftover : Error → Prop
  | leftover _ _ => True
  | _ => False

theorem Error.OfUnknownName.not_ofLeftover {e : Error} (h : e.OfUnknownName) : ¬e.OfLeftover := by
  cases e with
  | leftover site kind => exact absurd h id
  | _ => exact id

/-- The answer is code, or an error other than a token left over. -/
def Assembled : Except Error String → Prop
  | .ok symbols => IsCode symbols
  | .error e => ¬e.OfLeftover

namespace Token

variable {site : String} {size : Nat} {cs : List Char} {tokens : List Token} {e : Error}

/-! ### What is left behind each pass -/

/-- A repeat is written as copies of what is there. -/
theorem count?_of_pushRepeating {token : Token} {written written' : List Token}
    (hwritten : ∀ t ∈ written, t.count? = none)
    (h : pushRepeating site written token = .ok written') : ∀ t ∈ written', t.count? = none := by
  -- A token that is no repeat is written as it is, and a repeat writes copies of a token written
  -- before it. Both were no repeats.
  by_cases hcount : token.count? = none
  · intro t ht
    obtain hmem | rfl := mem_of_pushRepeating h t ht
    · exact hwritten t hmem
    · exact hcount
  obtain ⟨count, hcount⟩ := Option.ne_none_iff_exists'.mp hcount
  obtain rfl := eq_times_of_count? hcount
  cases written with
  | nil => cases h
  | cons last written =>
    rw [List.forall_mem_cons] at hwritten
    rw [pushRepeating] at h
    split at h
    · obtain rfl := Except.ok.inj h
      intro t ht
      rw [List.mem_append, List.mem_replicate] at ht
      obtain ⟨_, rfl⟩ | ht := ht
      · exact hwritten.1
      · exact hwritten.2 t ht
    · cases h

/-- No repeat is left behind the first pass. -/
theorem count?_of_expandRepeats {tokens' : List Token}
    (h : expandRepeats site tokens = .ok tokens') : ∀ t ∈ tokens', t.count? = none := by
  obtain ⟨written, hwritten, rfl⟩ := map_eq_ok h
  have hall : ∀ t ∈ written, t.count? = none :=
    foldlM_ok_induction (P := fun written => ∀ t ∈ written, t.count? = none) (by simp)
      (fun _ _ _ _ => count?_of_pushRepeating) hwritten
  intro t ht
  exact hall t (List.mem_reverse.mp ht)

/-- No call is left behind the second pass, and no repeat comes up. -/
theorem callee?_of_expanded {answers : Answers} {codes : List Token}
    (hcount : ∀ t ∈ tokens, t.count? = none) (h : Expanded answers tokens (.ok codes)) :
    (∀ t ∈ codes, t.callee? = none) ∧ ∀ t ∈ codes, t.count? = none := by
  -- The induction is on the expansion, whose result differs from case to case: the codes are kept
  -- as an equation.
  generalize hresult : Except.ok codes = result at h
  induction h generalizing codes with
  | nil =>
    obtain rfl := Except.ok.inj hresult
    simp
  | @stays token tokens result hstays _ ih =>
    obtain ⟨rest, rfl, rfl⟩ := map_eq_ok hresult.symm
    rw [List.forall_mem_cons] at hcount
    obtain ⟨hcallee, hrest⟩ := ih hcount.2 rfl
    -- A token that stays is no call, for a call has an answer.
    have htoken : token.callee? = none := by
      cases token with
      | code symbols => rfl
      | times count => rfl
      | call name args => cases hstays
    exact ⟨List.forall_mem_cons.mpr ⟨htoken, hcallee⟩, List.forall_mem_cons.mpr ⟨hcount.1, hrest⟩⟩
  | failed => cases hresult
  | expanded _ _ ih =>
    obtain ⟨rest, rfl, rfl⟩ := map_eq_ok hresult.symm
    rw [List.forall_mem_cons] at hcount
    obtain ⟨hcallee, hrest⟩ := ih hcount.2 rfl
    exact ⟨List.forall_mem_cons.mpr ⟨rfl, hcallee⟩, List.forall_mem_cons.mpr ⟨rfl, hrest⟩⟩

/-! ### How a pass fails -/

theorem not_ofLeftover_of_tokens {lexeme : Lexeme} (h : lexeme.tokens site = .error e) :
    ¬e.OfLeftover := by
  cases lexeme with
  | times digits =>
    simp only [Lexeme.tokens] at h
    split at h
    · cases h
    · obtain rfl := Except.error.inj h
      exact id
  | symbol c => cases h
  | call name list => cases h
  | layout => cases h

theorem not_ofLeftover_of_lexFrom (h : lexFrom site size cs = .error e) : ¬e.OfLeftover := by
  fun_induction lexFrom site size cs with
  | case1 => cases h
  | case2 =>
    obtain rfl := Except.error.inj h
    exact id
  | case3 cs hne lexeme rest hnext ih =>
    obtain hhere | ⟨here, -, h⟩ := bind_eq_error h
    · exact not_ofLeftover_of_tokens hhere
    obtain hlater | ⟨later, -, h⟩ := bind_eq_error h
    · exact ih hlater
    · cases h

theorem not_ofLeftover_of_pushRepeating {token : Token} {written : List Token}
    (h : pushRepeating site written token = .error e) : ¬e.OfLeftover := by
  unfold pushRepeating at h
  split at h
  · obtain rfl := Except.error.inj h
    exact id
  · split at h
    · cases h
    · obtain rfl := Except.error.inj h
      exact id
  · cases h

theorem not_ofLeftover_of_expandRepeats (h : expandRepeats site tokens = .error e) :
    ¬e.OfLeftover := by
  obtain ⟨_, _, _, hpush⟩ := foldlM_eq_error (map_eq_error h)
  exact not_ofLeftover_of_pushRepeating hpush

/-- The expansion of tokens fails as one of their calls does. -/
theorem exists_answer_of_expanded {answers : Answers} (h : Expanded answers tokens (.error e)) :
    ∃ name args, answers name args (.error e) := by
  generalize hresult : Except.error e = result at h
  induction h with
  | nil => cases hresult
  | stays _ _ ih => exact ih (map_eq_error hresult.symm).symm
  | failed hcall =>
    obtain rfl := Except.error.inj hresult
    exact ⟨_, _, hcall⟩
  | expanded _ _ ih => exact ih (map_eq_error hresult.symm).symm

end Token

namespace Environment

variable {env : Environment} {depth : Nat} {name : String} {args : List String}
  {answer : Except Error String} {tokens : List Token} {e : Error}

/-! ### Answers to calls -/

theorem not_ofLeftover_of_body (h : env.body name args = .error e) : ¬e.OfLeftover := by
  cases hget : env.macros.get? name with
  | none =>
    rw [body_of_get?_eq_none hget] at h
    obtain rfl := Except.error.inj h
    exact id
  | some m =>
    rw [body_of_get?_eq_some hget] at h
    obtain hfill | ⟨text, -, h⟩ := bind_eq_error h
    · exact (Template.ofUnknownName_of_fill hfill).not_ofLeftover
    obtain hlex | ⟨read, -, hrepeats⟩ := bind_eq_error h
    · exact Token.not_ofLeftover_of_lexFrom hlex
    · exact Token.not_ofLeftover_of_expandRepeats hrepeats

theorem count?_of_body (h : env.body name args = .ok tokens) : ∀ t ∈ tokens, t.count? = none := by
  cases hget : env.macros.get? name with
  | none =>
    rw [body_of_get?_eq_none hget] at h
    cases h
  | some m =>
    rw [body_of_get?_eq_some hget] at h
    obtain ⟨text, _, h⟩ := bind_eq_ok h
    obtain ⟨read, _, hrepeats⟩ := bind_eq_ok h
    exact Token.count?_of_expandRepeats hrepeats

/-- **Nothing is left over**: by the time code is joined, the tokens are code. -/
theorem not_ofLeftover_of_expands (h : env.Expands name args (.error e)) : ¬e.OfLeftover := by
  -- What is shown of a call is asked of any answer, since calls in the body may have code.
  refine Expands.induction
    (P := fun _ _ answer => ∀ e, answer = .error e → ¬e.OfLeftover) ?_ h e rfl
  rintro name args answer hunfolds e rfl
  unfold Unfolds at hunfolds
  cases hbody : env.body name args with
  | error e' =>
    simp only [hbody] at hunfolds
    obtain rfl := Except.error.inj hunfolds
    exact not_ofLeftover_of_body hbody
  | ok tokens =>
    simp only [hbody] at hunfolds
    obtain ⟨codes, hexpanded, hassemble⟩ := hunfolds
    cases codes with
    -- The error is the answer to a call in the body, and that one is no leftover.
    | error e' =>
      obtain rfl := Except.error.inj hassemble
      obtain ⟨callee, list, _, hcallee⟩ := Token.exists_answer_of_expanded hexpanded
      exact hcallee _ rfl
    | ok codes =>
      -- All calls have code, so the error is said to come of joining; but the tokens are plain.
      obtain ⟨hcallee, hcount⟩ := Token.callee?_of_expanded (count?_of_body hbody) hexpanded
      rw [Except.bind, Token.assemble_of_plain hcount hcallee] at hassemble
      cases hassemble

/-- An answer is code, or an error with a cause in the texts. -/
theorem assembled_of_expands (h : env.Expands name args answer) : Assembled answer := by
  cases answer with
  | ok symbols => exact isCode_of_expands h
  | error e => exact not_ofLeftover_of_expands h

theorem assembled_of_answered {calls : List (String × List String)}
    {answers : List (Except Error String)} (h : env.Answered calls answers) :
    ∀ answer ∈ answers, Assembled answer := by
  have hexpands := answered_iff.mp h
  clear h
  induction hexpands with
  | nil => simp
  | cons hcall _ ih => exact List.forall_mem_cons.mpr ⟨assembled_of_expands hcall, ih⟩

/-! ### What is built -/

theorem expands_of_compile (h : env.compile depth name = some answer) :
    env.Expands name [] answer := by
  obtain ⟨⟨_, memory⟩, hcall, rfl⟩ := Option.map_eq_some_iff.mp h
  exact (expands_of_call faithful_empty hcall).1

/-- **What is built is code**, and reducing it again changes nothing. -/
theorem isCode_of_build {code : String} (h : env.build depth = some (.ok code)) :
    IsCode code ∧ Peephole.reduce code = code := by
  obtain ⟨answer, hcompile, hcode⟩ := Option.map_eq_some_iff.mp h
  obtain ⟨symbols, rfl, rfl⟩ := map_eq_ok hcode
  have hsymbols := isCode_of_expands (expands_of_compile hcompile)
  have hsublist := Peephole.sublist_of_rewritings (Peephole.rewrites_reduce symbols)
  exact ⟨fun c hc => hsymbols c (hsublist.subset hc),
    Peephole.reduce_of_isNormal (Peephole.isNormal_reduce symbols)⟩

theorem program_eq_some_ok_iff {program : Block} :
    env.program depth = some (.ok program) ↔
      ∃ code, env.build depth = some (.ok code) ∧ Block.parse code = .ok program := by
  unfold Environment.program
  constructor
  · intro h
    obtain ⟨answer, hbuild, hparse⟩ := Option.map_eq_some_iff.mp h
    obtain ⟨code, rfl, hparse⟩ := bind_eq_ok hparse
    exact ⟨code, hbuild, hparse⟩
  · rintro ⟨code, hbuild, hparse⟩
    rw [hbuild]
    exact congrArg some hparse

/-- A program read from code has the code as its text. -/
theorem print_of_parse_of_isCode {code : String} {program : Block} (hcode : IsCode code)
    (h : Block.parse code = .ok program) : program.print = code := by
  have hfilter : code.toList.filter Lexeme.isSymbol = program.symbols :=
    Block.filter_of_spells (Block.spells_of_parse h)
  rw [List.filter_eq_self.mpr hcode] at hfilter
  rw [← String.toList_inj, Block.toList_print, hfilter]

/-- **What comes of a library.**  Answers to calls, made one after the other or one alone, are code
or errors with a cause in the texts, and never that a token was left over.  There is a program if
and only if code with balanced brackets is built, and then this code is the text of the program and
is reduced already. -/
theorem assembled_and_program_iff (env : Environment) :
    (∀ calls answers, env.Answered calls answers → ∀ answer ∈ answers, Assembled answer) ∧
      ∀ depth,
        ((∃ program, env.program depth = some (.ok program)) ↔
          ∃ code, env.build depth = some (.ok code) ∧ Block.Balanced code.toList) ∧
        ∀ program, env.program depth = some (.ok program) →
          env.build depth = some (.ok program.print) ∧
            Peephole.reduce program.print = program.print := by
  refine ⟨fun calls answers => assembled_of_answered, fun depth => ⟨⟨?_, ?_⟩, ?_⟩⟩
  · rintro ⟨program, hprogram⟩
    obtain ⟨code, hbuild, hparse⟩ := program_eq_some_ok_iff.mp hprogram
    exact ⟨code, hbuild, Block.exists_parse_iff_balanced.mp ⟨program, hparse⟩⟩
  · rintro ⟨code, hbuild, hbalanced⟩
    obtain ⟨program, hparse⟩ := Block.exists_parse_iff_balanced.mpr hbalanced
    exact ⟨program, program_eq_some_ok_iff.mpr ⟨code, hbuild, hparse⟩⟩
  · intro program hprogram
    obtain ⟨code, hbuild, hparse⟩ := program_eq_some_ok_iff.mp hprogram
    obtain ⟨hcode, hreduced⟩ := isCode_of_build hbuild
    rw [print_of_parse_of_isCode hcode hparse]
    exact ⟨hbuild, hreduced⟩

/-- The entry text calls `b` in a loop, with a pair and a dead loop behind it; `c` fails for a
repeat behind a call. -/
theorem assembled_and_program_iff_looping :
    let env : Environment :=
      ⟨.ofList [⟨"program", "/k/{2} [ b(-){2} > ] [.] <+- # x #"⟩, ⟨"b", "/0/~"⟩,
        ⟨"c", "b(+) {0}{2}"⟩], .ofList [("k", ",+")]⟩
    let answers := [.ok ",++[-~-~>][.]<+-", .error (.nothingToRepeat "c")]
    env.Answered [("program", []), ("c", [])] answers ∧ (∀ answer ∈ answers, Assembled answer) ∧
      ∃ program, env.program 3 = some (.ok program) ∧ env.build 3 = some (.ok program.print) ∧
        Peephole.reduce program.print = program.print := by
  intro env answers
  have hexpand : (env.expand 3 "program" []).run = some (.ok ",++[-~-~>][.]<+-") ∧
      (env.expand 3 "c" []).run = some (.error (.nothingToRepeat "c")) := by
    simp only [env, expand_succ, expand_zero, body, MacroSet.get?_ofList]
    decide +kernel
  have hanswered : env.Answered [("program", []), ("c", [])] answers :=
    answered_iff.mpr (.cons ⟨3, hexpand.1⟩ (.cons ⟨3, hexpand.2⟩ .nil))
  have hbuild : env.build 3 = some (.ok ",++[-~-~>]<") := by
    rw [build, entryName, compile_eq_of_expand hexpand.1]
    rfl
  have hbalanced : Block.Balanced ",++[-~-~>]<".toList := by decide
  obtain ⟨hassembled, hbuilt⟩ := assembled_and_program_iff env
  obtain ⟨program, hprogram⟩ := (hbuilt 3).1.mpr ⟨_, hbuild, hbalanced⟩
  exact ⟨hanswered, hassembled _ _ hanswered, program, hprogram, (hbuilt 3).2 program hprogram⟩

end Environment
end TapeLang

import Opstream.Command.Options

namespace Opstream.Command.Options

theorem addArgument_long (o : Options) (flag : Flag) :
    o.addArgument flag.long = o.addFlag flag := by
  have hlong : Flag.ofLong? flag.long = some flag := by
    cases flag <;> decide +kernel
  have hdashes : ∃ cs, flag.long.toList = '-' :: '-' :: cs := by
    cases flag <;> exact ⟨_, by simp [Flag.long]; rfl⟩
  obtain ⟨cs, hcs⟩ := hdashes
  rw [addArgument, hcs]
  change o.addLong flag.long = _
  rw [addLong, hlong]

theorem add_long (o : Options) (flag : Flag) (more : List String) :
    o.add (flag.long :: more) = (o.addFlag flag).bind fun o => o.add more := by
  have hflag : flag.long ≠ "--" := by
    cases flag <;> decide
  rw [add, if_neg hflag, addArgument_long]
  rfl

theorem add_verbose (o : Options) (n : Nat) (more : List String) :
    o.add (List.replicate n Flag.verbose.long ++ more) =
      { o with verbosity := o.verbosity + n }.add more := by
  induction n generalizing o with
  | zero => rfl
  | succ n ih =>
      rw [List.replicate_succ, List.cons_append, add_long]
      change { o with verbosity := o.verbosity + 1 }.add _ = _
      rw [ih, Nat.add_right_comm, Nat.add_assoc]

def arguments (o : Options) : List String :=
  (if o.binary then [Flag.binary.long] else []) ++ (if o.hex then [Flag.hex.long] else []) ++
    (if o.table then [Flag.table.long] else []) ++ List.replicate o.verbosity Flag.verbose.long ++
      match o.input with
      | none => []
      | some path => ["--", path]

theorem ofArguments_arguments {o : Options} (h : o.input ≠ some "") :
    ofArguments o.arguments = .ok o := by
  obtain ⟨input, binary, hex, table, verbosity⟩ := o
  have hbinary : ∀ more, default.add ((if binary then [Flag.binary.long] else []) ++ more) =
      add ⟨none, binary, false, false, 0⟩ more := fun more => by
    cases binary with
    | false => rfl
    | true => exact add_long default .binary more
  have hhex : ∀ more, add ⟨none, binary, false, false, 0⟩
      ((if hex then [Flag.hex.long] else []) ++ more) =
        add ⟨none, binary, hex, false, 0⟩ more := fun more => by
    cases hex with
    | false => rfl
    | true => exact add_long _ .hex more
  have htable : ∀ more, add ⟨none, binary, hex, false, 0⟩
      ((if table then [Flag.table.long] else []) ++ more) =
        add ⟨none, binary, hex, table, 0⟩ more := fun more => by
    cases table with
    | false => rfl
    | true => exact add_long _ .table more
  rw [ofArguments, arguments]
  simp only [List.append_assoc]
  rw [hbinary, hhex, htable, add_verbose, Nat.zero_add]
  cases input with
  | none => rfl
  | some path =>
      have hpath : path.isEmpty = false := by
        rw [Bool.eq_false_iff, Ne, String.isEmpty_iff]
        exact fun hempty => h (congrArg some hempty)
      dsimp only
      rw [add, if_pos rfl, List.foldlM_cons, addInput, hpath]
      rfl

end Opstream.Command.Options

import KeyChart.Command.Request

/-!
What arguments ask for. Main statements: flags in front of a file are all taken (`Options.read_flags`), and
every file with a name can be asked for, with and without each setting (`exists_asks`).
-/

namespace KeyChart

/-- The argument that gives a flag. -/
def Flag.argument (flag : Flag) : String := "--" ++ flag.long

/-- The flag settles no matter by itself. -/
def Flag.IsSetting (flag : Flag) : Prop := flag ≠ .help ∧ flag ≠ .version

instance (flag : Flag) : Decidable flag.IsSetting := inferInstanceAs (Decidable (_ ∧ _))

/-- The flags of these settings. -/
def Flag.settings (update json verbose : Bool) : List Flag :=
  (if update then [.update] else []) ++
    ((if json then [.json] else []) ++ if verbose then [.verbose] else [])

/-- The arguments ask for a run on the file with these settings. -/
def Asks (arguments : List String) (file : String) (update json verbose : Bool) : Prop :=
  ∃ o, Request.ofArguments arguments = .run o ∧ o.file = some file ∧ o.has .update = update ∧
    o.has .json = json ∧ o.has .verbose = verbose

namespace Options

variable {o : Options}

theorem named_of_ne (h : o.file ≠ some "") (next : Options → Request) : o.named next = next o :=
  if_neg h

theorem read_argument (o : Options) (flag : Flag) (as : List String) :
    o.read (flag.argument :: as) = o.withFlag flag fun o => o.read as := by
  cases flag <;> rfl

theorem withFlag_of_new {flag : Flag} (hfile : o.file ≠ some "") (hsetting : flag.IsSetting)
    (hnew : flag ∉ o.flags) (next : Options → Request) :
    o.withFlag flag next = next { o with flags := flag :: o.flags } := by
  have hhas : o.has flag = false := by
    rw [has, ← Bool.not_eq_true, List.contains_iff_mem]
    exact hnew
  rw [withFlag, named_of_ne hfile]
  cases flag with
  | help => exact absurd rfl hsetting.1
  | version => exact absurd rfl hsetting.2
  | _ => simp only [hhas, Bool.false_eq_true, if_false]

theorem read_flags {flags : List Flag} (hfile : o.file ≠ some "")
    (hsetting : ∀ flag ∈ flags, flag.IsSetting) (hnodup : (flags.reverse ++ o.flags).Nodup)
    (as : List String) :
    o.read (flags.map Flag.argument ++ as) =
      ({ o with flags := flags.reverse ++ o.flags } : Options).read as := by
  induction flags generalizing o with
  | nil => rfl
  | cons flag flags ih =>
    rw [List.reverse_cons, List.append_assoc, List.singleton_append] at hnodup ⊢
    have hnew : flag ∉ o.flags :=
      (List.nodup_cons.1 (List.nodup_append.1 hnodup).2.1).1
    rw [List.map_cons, List.cons_append, read_argument,
      withFlag_of_new hfile (hsetting flag List.mem_cons_self) hnew]
    exact ih (o := { o with flags := flag :: o.flags }) hfile
      (fun f hf => hsetting f (List.mem_cons_of_mem _ hf)) hnodup

/-- Behind two dashes alone the file may have any name but the empty one. -/
theorem read_file (hnone : o.file = .none) {file : String} (hfile : file ≠ "") :
    o.read ["--", file] = .run { o with file := some file } := by
  have hsome : some file ≠ some "" := fun h => hfile (Option.some.inj h)
  show o.withFile file (fun o => o.named .run) = _
  rw [withFile, hnone]
  exact if_neg hsome

end Options

theorem exists_asks {file : String} (hfile : file ≠ "") (update json verbose : Bool) :
    ∃ arguments, Asks arguments file update json verbose := by
  have hsetting : ∀ flag ∈ Flag.settings update json verbose, flag.IsSetting := by
    revert update json verbose
    decide
  have hnodup : ((Flag.settings update json verbose).reverse ++ Options.none.flags).Nodup := by
    revert update json verbose
    decide
  have hread : Options.none.read
      ((Flag.settings update json verbose).map Flag.argument ++ ["--", file]) =
        .run ⟨some file, (Flag.settings update json verbose).reverse ++ Options.none.flags⟩ := by
    rw [Options.read_flags (by decide) hsetting hnodup]
    exact Options.read_file rfl hfile
  have hhas : ∀ update json verbose,
      let flags := (Flag.settings update json verbose).reverse ++ Options.none.flags
      flags.contains .update = update ∧ flags.contains .json = json ∧
        flags.contains .verbose = verbose := by decide
  exact ⟨_, _, hread, rfl, hhas update json verbose⟩

end KeyChart

import DynamicLisp.Command.Arguments

/-! Command lines that are understood. Main statements: flags may stand before and behind the place
at which a program is given, and what the arguments ask for does not depend on where they stand. -/
namespace DynamicLisp.Command

/-- The argument asks for a session or for diagnostics, and for nothing else. -/
def IsFlag (arg : String) : Prop :=
  Switch.ofSpelling? arg = some .session ∨ Switch.ofSpelling? arg = some .verbose

variable {arg : String} {args flags fs before behind : List String} {o : Switch}

theorem IsFlag.ne_divider (h : IsFlag arg) : arg ≠ "--" := by
  rintro rfl
  exact absurd h (by unfold IsFlag; decide)

/-! ### Words -/

private theorem ofArgument_of_ofSpelling? (h : Switch.ofSpelling? arg = some o) :
    ∃ short, Word.ofArgument arg = .ok (.switch o short none) := by
  have hm : (arg, o) ∈ Switch.spellings := by
    obtain ⟨l, r, hl, _⟩ := List.lookup_eq_some_iff.mp h
    rw [hl]
    exact List.mem_append_right l (.head r)
  simp only [Switch.spellings, List.mem_cons, List.not_mem_nil, or_false, Prod.mk.injEq] at hm
  rcases hm with ⟨rfl, rfl⟩ | ⟨rfl, rfl⟩ | ⟨rfl, rfl⟩ | ⟨rfl, rfl⟩ | ⟨rfl, rfl⟩ | ⟨rfl, rfl⟩ |
    ⟨rfl, rfl⟩
  all_goals exact ⟨_, rfl⟩

theorem ofArguments_cons {w : Word} (hd : arg ≠ "--") (h : Word.ofArgument arg = .ok w) :
    Word.ofArguments (arg :: args) = (Word.ofArguments args).map (w :: ·) := by
  rw [Word.ofArguments, if_neg hd, h]
  cases Word.ofArguments args <;> rfl

theorem ofArgument_operand (h : arg.toList.head? ≠ some '-') :
    Word.ofArgument arg = .ok (.operand arg) := by
  unfold Word.ofArgument
  split
  · next hl => exact (h (by rw [hl]; rfl)).elim
  · rfl

theorem ofArgument_inline (text : String) :
    Word.ofArgument ("--expr=" ++ text) =
      .ok (.switch .expression false (some text.toList)) := by
  have hl : ("--expr=" ++ text).toList =
      '-' :: '-' :: 'e' :: 'x' :: 'p' :: 'r' :: '=' :: text.toList := String.toList_append
  -- no spelling has an equals sign
  have hn : Switch.ofSpelling? ("--expr=" ++ text) = none := by
    refine List.lookup_eq_none_iff.mpr fun s hs => bne_iff_ne.mpr fun he => ?_
    have hm : '=' ∉ s.1.toList := (by decide : ∀ s ∈ Switch.spellings, '=' ∉ s.1.toList) s hs
    rw [← he, hl] at hm
    exact hm (by simp)
  have hs : Word.splitEquals ('-' :: '-' :: 'e' :: 'x' :: 'p' :: 'r' :: '=' :: text.toList) =
      ("--expr".toList, some text.toList) := rfl
  have he : Switch.ofSpelling? (String.ofList "--expr".toList) = some .expression := rfl
  unfold Word.ofArgument
  simp only [hl, hn, hs, he]
  rfl

/-! ### What flags ask for -/

/-- What is asked for with some flags more. -/
def Arguments.heed (a : Arguments) (flags : List String) : Arguments :=
  { a with
    session := a.session || flags.any fun f => Switch.ofSpelling? f = some .session
    verbose := a.verbose || flags.any fun f => Switch.ofSpelling? f = some .verbose }

theorem Arguments.heed_append (a : Arguments) (flags fs : List String) :
    a.heed (flags ++ fs) = (a.heed flags).heed fs := by
  simp [heed, Bool.or_assoc]

namespace Arguments

/-- What is taken with some flags more. -/
def Progress.heed (p : Progress) (flags : List String) : Progress :=
  { p with taken := p.taken.heed flags }

private theorem take_flag {short : Bool} {us : List Word} (p : Progress) (h : IsFlag arg)
    (ho : Switch.ofSpelling? arg = some o) :
    take p (.switch o short none :: us) = take (p.heed [arg]) us := by
  rcases h with h | h
  · obtain rfl : o = .session := Option.some.inj (ho.symm.trans h)
    have hp : p.heed [arg] = { p with taken := { p.taken with session := true } } := by
      simp [Progress.heed, heed, h]
    rw [take, hp, Cluster.ofSwitch]
    rfl
  · obtain rfl : o = .verbose := Option.some.inj (ho.symm.trans h)
    have hp : p.heed [arg] = { p with taken := { p.taken with verbose := true } } := by
      simp [Progress.heed, heed, h]
    rw [take, hp, Cluster.ofSwitch]
    rfl

/-- Flags are heeded one after the other, whatever words follow. -/
private theorem take_flags (h : ∀ f ∈ flags, IsFlag f) :
    ∃ ws, (∀ w ∈ ws, w.isOption) ∧
      (∀ args, Word.ofArguments (flags ++ args) = (Word.ofArguments args).map (ws ++ ·)) ∧
      ∀ p us, take p (ws ++ us) = take (p.heed flags) us := by
  induction flags with
  | nil =>
    refine ⟨[], fun w hw => (List.not_mem_nil hw).elim, fun args => ?_, fun p us => ?_⟩
    · cases hr : Word.ofArguments args <;> simp [hr, Except.map]
    · simp [Progress.heed, heed]
  | cons f flags ih =>
    obtain ⟨hf, hflags⟩ := List.forall_mem_cons.mp h
    obtain ⟨ws, hopt, hwords, htake⟩ := ih hflags
    obtain ⟨o, ho⟩ : ∃ o, Switch.ofSpelling? f = some o := hf.elim (⟨_, ·⟩) (⟨_, ·⟩)
    obtain ⟨short, hw⟩ := ofArgument_of_ofSpelling? ho
    refine ⟨.switch o short none :: ws, List.forall_mem_cons.mpr ⟨rfl, hopt⟩, ?_, ?_⟩
    · intro args
      rw [List.cons_append, ofArguments_cons hf.ne_divider hw, hwords]
      cases Word.ofArguments args <;> rfl
    · intro p us
      rw [List.cons_append, take_flag p hf ho, htake, Progress.heed, Progress.heed,
        ← heed_append]
      rfl

/-! ### Programs between flags -/

/-- Flags alone, up to the end of the words. -/
private theorem take_flags_alone (h : ∀ f ∈ flags, IsFlag f) :
    ∃ ws, (∀ w ∈ ws, w.isOption) ∧ Word.ofArguments flags = .ok ws ∧
      ∀ p, take p ws = .ok (p.heed flags) := by
  obtain ⟨ws, hopt, hwords, htake⟩ := take_flags h
  refine ⟨ws, hopt, ?_, fun p => ?_⟩
  · simpa [Except.map, Word.ofArguments] using hwords []
  · simpa [take] using htake p []

theorem parse_flags (h : ∀ f ∈ flags, IsFlag f) : parse flags = .ok (empty.heed flags) := by
  obtain ⟨ws, _, hwords, htake⟩ := take_flags_alone h
  rw [parse, hwords]
  show (take ⟨empty, []⟩ ws) >>= _ = _
  rw [htake]
  rfl

/-- An argument between flags that is taken by itself, whatever was asked for before. -/
private theorem parse_between {w : Word} (taken : Arguments → Arguments)
    (hbefore : ∀ f ∈ before, IsFlag f) (hbehind : ∀ f ∈ behind, IsFlag f) (hd : arg ≠ "--")
    (hw : Word.ofArgument arg = .ok w)
    (ht : ∀ p us, p.taken.file = none → (∀ u ∈ us, u.isOption) →
      take p (w :: us) = take { p with taken := taken p.taken } us) :
    parse (before ++ [arg] ++ behind) = .ok ((taken (empty.heed before)).heed behind) := by
  obtain ⟨ws, _, hwords, htake⟩ := take_flags hbefore
  obtain ⟨us, hopt, hwords', htake'⟩ := take_flags_alone hbehind
  have hall : Word.ofArguments (before ++ [arg] ++ behind) = .ok (ws ++ w :: us) := by
    rw [List.append_assoc, hwords, List.singleton_append, ofArguments_cons hd hw, hwords']
    rfl
  rw [parse, hall]
  show (take ⟨empty, []⟩ (ws ++ w :: us)) >>= _ = _
  rw [htake, ht _ _ rfl hopt, htake']
  rfl

/-- A text behind `--expr=` is the program, whatever it looks like, unless it is the divider. -/
theorem parse_inline (hbefore : ∀ f ∈ before, IsFlag f) (hbehind : ∀ f ∈ behind, IsFlag f)
    {program : String} (hp : program ≠ "--") :
    parse (before ++ ["--expr=" ++ program] ++ behind) =
      .ok { empty.heed (before ++ behind) with expression := some (.text program) } := by
  have hd : "--expr=" ++ program ≠ "--" := by
    intro he
    have hl := congrArg (fun s => s.toList.length) he
    simp at hl
  have hv : Expression.ofValue (String.ofList program.toList) = .text program := by
    rw [String.ofList_toList, Expression.ofValue, if_neg hp]
  have ht : ∀ p us, p.taken.file = none → (∀ u ∈ us, Word.isOption u) →
      take p (.switch .expression false (some program.toList) :: us) =
        take { p with taken := { p.taken with expression := some (.text program) } } us := by
    intro p us _ _
    rw [take, Cluster.ofSwitch.eq_def, ← hv]
    rfl
  rw [heed_append]
  exact parse_between (fun a => { a with expression := some (.text program) }) hbefore hbehind hd
    (ofArgument_inline program) ht

/-- An argument that does not start with a dash is the file. -/
theorem parse_file (hbefore : ∀ f ∈ before, IsFlag f) (hbehind : ∀ f ∈ behind, IsFlag f)
    {path : String} (hp : path.toList.head? ≠ some '-') :
    parse (before ++ [path] ++ behind) =
      .ok { empty.heed (before ++ behind) with file := some path } := by
  have hd : path ≠ "--" := by
    rintro rfl
    exact hp rfl
  have ht : ∀ p us, p.taken.file = none → (∀ u ∈ us, Word.isOption u) →
      take p (.operand path :: us) =
        take { p with taken := { p.taken with file := some path } } us := by
    intro p us hf hopt
    cases us with
    | nil => simp [take, Progress.finish, Progress.takeFile, hf]
    | cons u us =>
      have hu : u.isOption := hopt u (.head us)
      simp [take, hu, hf, Progress.takeFile]
  rw [heed_append]
  exact parse_between (fun a => { a with file := some path }) hbefore hbehind hd
    (ofArgument_operand hp) ht

end Arguments

end DynamicLisp.Command

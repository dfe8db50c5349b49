import Mathlib
import GodelWhile.Proofs.AllRuns

/-! # A limit on the output only cuts the output off

A program does not notice a limit on its output until it reaches it, and then it ends. So the run
under a limit of `k` bytes is known from the run without limit: if all of the output fits, it is the
same run, and otherwise it fails with the first `k` bytes of that output written, wherever in a line
or in a nest of calls the limit is met.

The invariant speaks of both runs at once (`Run.Truncates`). Where the limited run has failed
already, the other one goes on; it can only add to its output, which leaves the first `k` bytes
alone. -/

namespace GodelWhile

namespace Sink

variable {k : Nat} {written : ByteArray} {text : String}

theorem write_of_le (h : (written ++ text.toUTF8).size ≤ k) :
    write ⟨some k, written⟩ text = (⟨some k, written ++ text.toUTF8⟩, true) :=
  if_pos (decide_eq_true h)

theorem write_of_lt (h : k < (written ++ text.toUTF8).size) :
    write ⟨some k, written⟩ text = (⟨some k, (written ++ text.toUTF8).extract 0 k⟩, false) :=
  if_neg (by rw [fits, decide_eq_true_iff]; omega)

end Sink

/-- The machine with its output limited. -/
def Machine.limited (k : Nat) (m : Machine) : Machine := ⟨m.store, ⟨some k, m.sink.written⟩⟩

/-- The second machine has no limit on its output, and its output continues that of the first. -/
structure Machine.Continues (m m' : Machine) : Prop where
  limit : m'.sink.limit = none
  written : ∃ more, m'.sink.written = m.sink.written ++ more

namespace Machine.Continues

variable {m m₁ m₂ : Machine}

theorem of_sink_eq (hm : m.sink.limit = none) (h : m₁.sink = m.sink) : m.Continues m₁ :=
  ⟨by rw [h, hm], .empty, by rw [h, ByteArray.append_empty]⟩

theorem trans (h : m.Continues m₁) (h' : m₁.Continues m₂) : m.Continues m₂ := by
  obtain ⟨more, hmore⟩ := h.written
  obtain ⟨rest, hrest⟩ := h'.written
  exact ⟨h'.limit, more ++ rest, by rw [hrest, hmore, ByteArray.append_assoc]⟩

theorem size_le (h : m.Continues m₁) : m.sink.written.size ≤ m₁.sink.written.size := by
  obtain ⟨more, hmore⟩ := h.written
  rw [hmore, ByteArray.size_append]
  omega

/-- Output that goes beyond `k` bytes has its first `k` bytes for good. -/
theorem extract_eq (h : m.Continues m₁) {k : Nat} (hk : k ≤ m.sink.written.size) :
    m₁.sink.written.extract 0 k = m.sink.written.extract 0 k := by
  obtain ⟨more, hmore⟩ := h.written
  have hnone : more.extract (0 - m.sink.written.size) (k - m.sink.written.size) = .empty := by
    rw [ByteArray.extract_eq_empty_iff]
    omega
  rw [hmore, ByteArray.extract_append, hnone, ByteArray.append_empty]

end Machine.Continues

namespace Ending

variable {α β : Type} {k : Nat}

/-- The ending with the output of the machine that is left limited. -/
def limited (k : Nat) : Ending α → Ending α
  | .value a m => .value a (m.limited k)
  | .exit m => .exit (m.limited k)
  | .error e m => .error e (m.limited k)
  | .outOfFuel => .outOfFuel

theorem limited_ne_outOfFuel {r : Ending α} (h : r ≠ .outOfFuel) : r.limited k ≠ .outOfFuel := by
  cases r with
  | outOfFuel => exact absurd rfl h
  | _ => simp [limited]

/-- The second ending is what a limit of `k` bytes makes of the first: the same if the output fits,
otherwise an error with the first `k` bytes written. -/
def CutTo (k : Nat) (r r' : Ending α) : Prop :=
  ∀ m, r.machine? = some m →
    (m.sink.written.size ≤ k → r' = r.limited k) ∧
      (k < m.sink.written.size →
        ∃ s, r' = .error .outputFull ⟨s, ⟨some k, m.sink.written.extract 0 k⟩⟩)

theorem CutTo.of_fits {r : Ending α} (h : ∀ m, r.machine? = some m → m.sink.written.size ≤ k) :
    r.CutTo k (r.limited k) :=
  fun m hm => ⟨fun _ => rfl, fun hlong => absurd (h m hm) (by omega)⟩

/-- An ending without value stands. -/
theorem CutTo.andThen_of_stop {r r' : Ending α} {f : α → Machine → Ending β} (h : r.CutTo k r')
    (hr : ∀ a m, r ≠ .value a m) : (r.andThen f).CutTo k (r'.andThen f) := by
  intro m hm
  have hstop : r.machine? = some m ∧ (r.andThen f).limited k = (r.limited k).andThen f := by
    cases r with
    | value a m => exact absurd rfl (hr a m)
    | exit | error => exact ⟨hm, rfl⟩
    | outOfFuel => cases hm
  obtain ⟨hfits, hcut⟩ := h m hstop.1
  refine ⟨fun hle => ?_, fun hlt => ?_⟩
  · rw [hfits hle, hstop.2]
  · obtain ⟨s, hs⟩ := hcut hlt
    exact ⟨s, by rw [hs]; rfl⟩

/-- Once cut off, an ending stands for all that the run without limit goes on to do. -/
theorem CutTo.of_continues {m : Machine} {s : Store} {r : Ending α} {S : α → Prop}
    (hk : k < m.sink.written.size) (h : r.Satisfies S (m.Continues ·)) :
    r.CutTo k (.error .outputFull ⟨s, ⟨some k, m.sink.written.extract 0 k⟩⟩) := by
  intro m' hm'
  have hcontinues : m.Continues m' := h.machine hm'
  have hsize := hcontinues.size_le
  refine ⟨fun hle => by omega, fun _ => ⟨s, ?_⟩⟩
  rw [hcontinues.extract_eq hk.le]

end Ending

/-- A run with values in `S` for which a limit of `k` bytes on the output only cuts the output off.
-/
structure Run.Truncates (k : Nat) {α : Type} (S : α → Prop) (r : Run α) : Prop where
  continues : ∀ m : Machine, m.sink.limit = none → (r m).Satisfies S (m.Continues ·)
  cut : ∀ m : Machine, m.sink.limit = none → m.sink.written.size ≤ k →
    (r m).CutTo k (r (m.limited k))

namespace Run.Truncates

variable {k : Nat} {α β : Type} {S : α → Prop} {T : β → Prop}

/-- A run that does not look at the output. -/
theorem of_quiet {r : Run α} (hsink : ∀ m, (r m).Satisfies S fun m' => m'.sink = m.sink)
    (hlimited : ∀ m, r (m.limited k) = (r m).limited k) : Run.Truncates k S r where
  continues m hm := (hsink m).mono fun _ => .of_sink_eq hm
  cut m _ hfits := by
    rw [hlimited]
    refine .of_fits fun m' hm' => ?_
    have hsame : m'.sink = m.sink := (hsink m).machine hm'
    rwa [hsame]

theorem bind {r : Run α} {f : α → Run β} (hr : Run.Truncates k S r)
    (hf : ∀ a, S a → Run.Truncates k T (f a)) : Run.Truncates k T (r >>= f) where
  continues m hm := by
    refine (hr.continues m hm).andThen (fun _ => id) ?_
    intro a m₁ ha hm₁
    exact ((hf a ha).continues m₁ hm₁.limit).mono fun _ => hm₁.trans
  cut m hm hfits := by
    have hcontinues := hr.continues m hm
    have hcut := hr.cut m hm hfits
    rw [Run.bind_apply, Run.bind_apply]
    cases hrm : r m with
    | value a m₁ =>
      rw [hrm] at hcontinues hcut
      obtain ⟨ha, hm₁⟩ := hcontinues
      obtain ⟨hsame, hfull⟩ := hcut m₁ rfl
      by_cases hfits₁ : m₁.sink.written.size ≤ k
      -- the limit is not reached yet: both runs go on
      · rw [hsame hfits₁]
        exact (hf a ha).cut m₁ hm₁.limit hfits₁
      -- the limited run has failed: the other one goes on alone
      · obtain ⟨s, hs⟩ := hfull (by omega)
        rw [hs]
        exact .of_continues (by omega) ((hf a ha).continues m₁ hm₁.limit)
    | _ =>
      rw [hrm] at hcut
      exact hcut.andThen_of_stop (by simp)

theorem write (k : Nat) (text : String) : Run.Truncates k (fun _ => True) (Run.write text) where
  continues := by
    rintro ⟨store, limit, written⟩ rfl
    exact ⟨trivial, rfl, text.toUTF8, rfl⟩
  cut := by
    rintro ⟨store, limit, written⟩ rfl - m' ⟨⟩
    refine ⟨fun hle => ?_, fun hlt => ⟨store, ?_⟩⟩
    · change Run.write text ⟨store, ⟨some k, written⟩⟩ =
        .value () ⟨store, ⟨some k, written ++ text.toUTF8⟩⟩
      simp [Run.write_apply, Sink.write_of_le hle]
    · change Run.write text ⟨store, ⟨some k, written⟩⟩ = _
      simp [Run.write_apply, Sink.write_of_lt hlt]

/-- A limit only cuts the output off in all runs. -/
theorem closed (k : Nat) : Run.Closed (fun _ => True) (fun _ => True) (Run.Truncates k) where
  pure ha := .of_quiet (fun _ => ⟨ha, rfl⟩) fun _ => rfl
  bind := .bind
  fail _ := .of_quiet (fun _ => rfl) fun _ => rfl
  exit := .of_quiet (fun _ => rfl) fun _ => rfl
  read _ := .of_quiet (fun _ => ⟨Value.builtFrom_true _, rfl⟩) fun _ => rfl
  insert _ _ := .of_quiet (fun _ => ⟨trivial, rfl⟩) fun _ => rfl
  reset _ := .of_quiet (fun _ => ⟨trivial, rfl⟩) fun _ => rfl
  write _ := .write k
  store _ := .of_quiet (fun _ => ⟨trivial, rfl⟩) fun _ => rfl
  held _ _ := fun _ _ => trivial
  decoded _ _ := fun _ _ => trivial
  run _ _ := fun _ _ => trivial

end Run.Truncates

namespace Code

/-- If a run without limit on its output ends, then so does the run under a limit of `k` bytes. If
the output fits, it ends in the same way, with the same output and the same variables; if not, it
fails for that reason, with exactly the first `k` bytes of the output written. -/
theorem ends_limited {t : Code} {s : Store} {r : Ending (Option Value)}
    (hr : t.Ends (.ofStore s none) r) (k : Nat) :
    ∃ m, r.machine? = some m ∧
      (m.sink.written.size ≤ k → t.Ends (.ofStore s (some k)) (r.limited k)) ∧
      (k < m.sink.written.size → ∃ s', t.Ends (.ofStore s (some k))
        (.error .outputFull ⟨s', ⟨some k, m.sink.written.extract 0 k⟩⟩)) := by
  obtain ⟨hne, fuel, rfl⟩ := hr
  obtain ⟨m, hm⟩ := Ending.exists_machine hne
  have htruncates := (Run.Truncates.closed k).evalWithin (.of_quiet (fun _ => trivial) fun _ => rfl)
    fuel (c := t) fun _ _ => trivial
  obtain ⟨hsame, hfull⟩ := htruncates.cut (.ofStore s none) rfl (Nat.zero_le k) m hm
  refine ⟨m, hm, fun hle => ⟨Ending.limited_ne_outOfFuel hne, fuel, hsame hle⟩, fun hlt => ?_⟩
  obtain ⟨s', hs'⟩ := hfull hlt
  exact ⟨s', by simp, fuel, hs'⟩

/-- Of the seven bytes that show the variable, three are written. -/
theorem ends_limited_three :
    let t := Code.suite [.directive (.print "x"), .assign "y" (.int 1)]
    let s := Store.ofList [("x", .int 5)]
    (∃ m, t.Ends (.ofStore s none) (.value none m) ∧ 3 < m.sink.written.size) ∧
      ∃ m, t.Ends (.ofStore s (some 3)) (.error .outputFull m) ∧ m.sink.written = "x :".toUTF8 := by
  intro t s
  obtain ⟨m, hrun, hwritten⟩ : ∃ m, evalWithin 3 t (.ofStore s none) = .value none m ∧
      m.sink.written = "x := 5\n".toUTF8 := ⟨_, rfl, rfl⟩
  have hends : t.Ends (.ofStore s none) (.value none m) := ⟨by simp, 3, hrun⟩
  have hlong : 3 < m.sink.written.size := by
    rw [hwritten]
    decide
  obtain ⟨_, ⟨⟩, -, hcut⟩ := ends_limited hends 3
  obtain ⟨s', hs'⟩ := hcut hlong
  have hfirst : m.sink.written.extract 0 3 = "x :".toUTF8 := by
    rw [hwritten]
    decide
  exact ⟨⟨m, hends, hlong⟩, _, hs', hfirst⟩

end Code

end GodelWhile

import VeRoot.Kconfig.Expressible

/-!
# Values under loaded user values

A file says less than the user did, and more: the symbols that have default values are set to them,
and the modes of the choices are what their symbols show.  Nevertheless every attribute is calculated
as before.

## Main definitions

* `Reloaded` — user values that have been loaded from a file.
* `choiceTri_keeps`, `triRule_keeps`, `strRule_keeps`, `selectionRule_keeps` — the four places where
  user values count.
* `rule_keeps` — all attributes.
-/

namespace Kconfig

open Unix Demand

namespace Config

variable {K : Config} {top : Menu} {u u' : User} {x y : Text} {s : Symbol} {k : ℕ} {c : Choice}
  {v t M vis raw : Tri} {r : Tri × Bool} {e : Expr} {es : List Expr} {n m : ℕ}
  {rule : (d : Cell) → Query Val (Val d)}

/-! ## The loaded user values -/

/-- The user values have been loaded from a file that was written under `u`. -/
structure Reloaded (K : Config) (u u' : User) (m : ℕ) (top : Menu) : Prop where
  finalized : K.Finalized top
  selects : K.Selects u
  validTexts : K.ValidTexts u
  expressible : K.Expressible u
  restores : K.Restores (value (K.rule u) m) u'

theorem Reloaded.tri_eq (h : K.Reloaded u u' m top) (hs : K.sym x = some s)
    (ht : s.origType.isBoolTristate) (hv : Gives (K.rule u) (K.rule u (.tri x)) (t, true)) :
    u'.tri x = some t := by
  rw [h.restores.tri x s hs ht, triEntry_eq rfl hs ht (h.restores.known x s hs) hv, if_pos rfl]

/-- The modes of the choices come out the same: a mode that a symbol shows has been set, and any
other one is the lowest that the choice allows. -/
theorem choiceTri_keeps (h : K.Reloaded u u' m top) (n k : ℕ) :
    Query.Keeps (value (K.rule u) n) (K.choiceTri u k) (K.choiceTri u' k) := by
  intro M hM
  cases hc : K.choices[k]? with
  | none => simpa only [choiceTri, hc] using hM
  | some c =>
    rw [← gives_table] at hM ⊢
    have hmode := hM.of_table
    rw [gives_choiceTri hc] at hM ⊢
    obtain ⟨vis, hvis, hM⟩ := hM
    refine ⟨vis, hvis, ?_⟩
    by_cases hsh : ∃ x t, K.Shows (value (K.rule u) m) k x t
    · obtain ⟨x, t, hsh⟩ := hsh
      obtain rfl := hmode.unique (mode_of_shows rfl h.finalized hsh)
      obtain ⟨-, -, -, -, hn⟩ := id hsh
      have hw : wantedMode u' c k = max (if c.isOptional then .n else .m) M := by
        rw [wantedMode, (h.restores.shows k x M hsh).1, Option.getD_some]
      rw [hw]
      cases M with
      | n => exact absurd rfl hn
      | m =>
        have hmax : max (if c.isOptional then Tri.n else .m) .m = .m := by
          cases c.isOptional <;> rfl
        rw [hmax]
        obtain ⟨hne, he⟩ | ⟨hm, hty⟩ := hM
        · exact absurd he.symm hne
        · cases vis with
          | n => rw [Tri.min_n] at hm; cases hm
          | m => exact .inr ⟨rfl, hty⟩
          | y => exact .inr ⟨rfl, hty⟩
      | y =>
        rw [Tri.max_y, Tri.y_min]
        obtain ⟨-, he⟩ | ⟨hm, hty⟩ := hM
        · obtain rfl : vis = .y := le_antisymm (Tri.le_y vis) (he ▸ min_le_right _ _)
          exact .inl ⟨by decide, rfl⟩
        · cases vis with
          | n => rw [Tri.min_n] at hm; cases hm
          | m => exact .inr ⟨rfl, hty⟩
          | y => exact .inl ⟨by decide, rfl⟩
    · have hnone := (h.restores.rest k (List.getElem?_eq_some_iff.mp hc).1 fun x t hx =>
        hsh ⟨x, t, hx⟩).1
      have hw : wantedMode u' c k = if c.isOptional then .n else .m := by
        rw [wantedMode, hnone, Option.getD_none, Tri.max_n]
      rcases h.expressible.mode k c hc with hle | hn | ⟨x, hx, r, hr, hn⟩
      · -- the user has not raised the mode
        have hw' : wantedMode u c k = if c.isOptional then .n else .m := max_eq_left hle
        rwa [hw, ← hw']
      · obtain rfl := hmode.unique hn
        obtain ⟨-, he⟩ | ⟨-, ty, -, he⟩ := hM
        · have hle : min (wantedMode u' c k) vis = .n := by
            refine le_antisymm ?_ (Tri.n_le _)
            rw [he, hw]
            exact min_le_min_right _ (le_max_left _ _)
          exact .inl ⟨by rw [hle]; decide, hle.symm⟩
        · split at he <;> cases he
      · obtain ⟨s, hs, hk, ht⟩ := (h.finalized.choice k c hc).2 x hx
        exact absurd ⟨x, _, shows_of_value rfl hs hk ht (h.restores.known x s hs) hr hn⟩ hsh

/-! ## Bool and tristate values -/

theorem triFree_of {vis rev : Tri} {base : Tri × Bool} (hb : Gives rule (K.triBase u x s vis) base)
    (hr : Gives rule (K.exprValue u s.revDep) rev)
    (h : (raise base rev).1 ≠ .m ∧ r = raise base rev ∨
      (raise base rev).1 = .m ∧ ∃ p, Gives rule (K.promotes u s) p ∧ r = settle p (raise base rev)) :
    Gives rule (K.triFree u x s vis) r := by
  refine gives_bind.mpr ⟨base, hb, gives_bind.mpr ⟨rev, hr, ?_⟩⟩
  dsimp only
  rcases h with ⟨hm, rfl⟩ | ⟨hm, p, hp, rfl⟩
  · rw [if_neg hm]
    exact gives_done.mpr rfl
  · rw [if_pos hm]
    refine gives_bind.mpr ⟨p, hp, gives_done.mpr ?_⟩
    simp only [settle, hm, true_and]

theorem raise_true (b rev : Tri) : raise (b, true) rev = (max rev b, true) := by
  unfold raise
  split
  · rfl
  · next h => rw [not_not.mp h, Tri.n_max]

/-- The value before selects of a symbol that is visible.  It is written. -/
theorem triBase_spec {base : Tri × Bool} (hv : vis ≠ .n)
    (h : Gives rule (K.triBase u x s vis) base) : base.2 = true ∧
      (∀ v, u.tri x = some v → base.1 = min v vis) ∧
      (u.tri x = none → ∃ weak, Gives rule (K.exprValue u s.weakRevDep) weak) := by
  unfold triBase at h
  split at h
  · next v hx =>
    rw [if_pos hv] at h
    obtain rfl := gives_done.mp h
    rw [hx]
    exact ⟨rfl, fun w e => by rw [Option.some.inj e], fun e => absurd e (Option.some_ne_none v)⟩
  · next hx =>
    obtain ⟨val, -, h⟩ := gives_bind.mp h
    obtain ⟨weak, hweak, h⟩ := gives_bind.mp h
    refine ⟨?_, fun v e => absurd (hx.symm.trans e) (Option.some_ne_none v).symm, fun _ => ⟨weak, hweak⟩⟩
    split at h
    · obtain ⟨dep, -, h⟩ := gives_bind.mp h
      rw [← gives_done.mp h]
      split
      · rfl
      · simp [hv]
    · rw [← gives_done.mp h]
      simp [hv]

/-- Setting a symbol to the value it has, which is not too high, does not change it. -/
theorem settled_again {rev b vis r : Tri} {P : Bool → Prop} (hv : vis ≠ .n)
    (hle : max rev b ≤ max vis rev)
    (h : max rev b ≠ .m ∧ r = max rev b ∨ ∃ p, P p ∧ r = if max rev b = .m ∧ p then .y else max rev b) :
    max rev (min r vis) ≠ .m ∧ r = max rev (min r vis) ∨ max rev (min r vis) = .m ∧
      ∃ p, P p ∧ r = if max rev (min r vis) = .m ∧ p then .y else max rev (min r vis) := by
  have hsame : max rev (min (max rev b) vis) = max rev b := by
    revert hle hv
    cases rev <;> cases b <;> cases vis <;> decide
  have stay : r = max rev b → max rev b ≠ .m → max rev (min r vis) ≠ .m ∧ r = max rev (min r vis) := by
    rintro rfl hm
    rw [hsame]
    exact ⟨hm, rfl⟩
  rcases h with ⟨hm, hr⟩ | ⟨p, hp, hr⟩
  · exact .inl (stay hr hm)
  · by_cases hm : max rev b = .m
    · cases p with
      | false =>
        obtain rfl : r = .m := by rw [hr, if_neg (by simp), hm]
        rw [hm] at hsame
        exact .inr ⟨hsame, false, hp, by rw [hsame]; rfl⟩
      | true =>
        obtain rfl : r = .y := by rw [hr, if_pos ⟨hm, rfl⟩]
        rw [Tri.y_min]
        have hrev : rev ≠ .y := by
          rintro rfl
          rw [Tri.y_max] at hm
          cases hm
        cases vis with
        | n => exact absurd rfl hv
        | m =>
          have hmax : max rev .m = .m := by
            revert hrev
            cases rev <;> decide
          exact .inr ⟨hmax, true, hp, by rw [hmax]; rfl⟩
        | y => exact .inl (by rw [Tri.max_y]; exact ⟨by decide, rfl⟩)
    · exact .inl (stay (hr.trans (if_neg fun h => hm h.1)) hm)

/-- A symbol that is not in a choice. -/
theorem triFree_keeps (h : K.Reloaded u u' m top) (hs : K.sym x = some s) (hk : s.choice = none)
    (ht : s.origType.isBoolTristate) (hvis : value (K.rule u) n (.vis (.sym x)) = some vis) :
    Query.Keeps (value (K.rule u) n) (K.triFree u x s vis) (K.triFree u' x s vis) := by
  have hch := choiceTri_keeps h n
  have keep : ∀ {α : Type} {q q' : Query Val α} {a : α}, Query.Keeps (value (K.rule u) n) q q' →
      Gives (value (K.rule u) n).rules q a → Gives (value (K.rule u) n).rules q' a :=
    fun hq h => gives_table.mpr (hq _ (gives_table.mp h))
  by_cases hv : vis = .n
  · refine triFree_agree (R := .keeps _) hch ?_
    rw [hv, triBase_n, triBase_n]
    exact triImplied_agree (R := .keeps _) hch
  · intro r hr
    rw [← gives_table] at hr ⊢
    have hval : Gives (K.rule u) (K.rule u (.tri x)) r := by
      simp only [Config.rule, hs, Option.elim_some, triRule, if_pos ht, hk]
      exact gives_ask.mpr ⟨vis, gives_rule.mpr ⟨n, hvis⟩, hr.of_table⟩
    obtain ⟨⟨b, w⟩, rev, hb, hrev, hcase⟩ := gives_triFree hr
    obtain ⟨hw, hset, hweak⟩ := triBase_spec hv hb
    obtain rfl : w = true := hw
    obtain ⟨r, w⟩ := r
    rw [raise_true] at hcase
    obtain ⟨rfl, hval'⟩ : w = true ∧ (max rev b ≠ .m ∧ r = max rev b ∨
        ∃ p, Gives (value (K.rule u) n).rules (K.promotes u s) p ∧
          r = if max rev b = .m ∧ p then .y else max rev b) := by
      rcases hcase with ⟨hm, he⟩ | ⟨p, hp, he⟩
      · obtain ⟨rfl, rfl⟩ := Prod.mk.inj he
        exact ⟨rfl, .inl ⟨hm, rfl⟩⟩
      · unfold settle at he
        split at he
        · next hm =>
          obtain ⟨rfl, rfl⟩ := Prod.mk.inj he
          exact ⟨rfl, .inr ⟨p, hp, (if_pos hm).symm⟩⟩
        · next hm =>
          obtain ⟨rfl, rfl⟩ := Prod.mk.inj he
          exact ⟨rfl, .inr ⟨p, hp, (if_neg hm).symm⟩⟩
    have hu' : u'.tri x = some r := h.tri_eq hs ht hval
    have hb' : Gives (value (K.rule u) n).rules (K.triBase u' x s vis) (min r vis, true) := by
      unfold triBase
      rw [hu']
      simp only [if_pos hv]
      exact gives_done.mpr rfl
    refine triFree_of hb' (keep (exprValue_agree (R := .keeps _) hch) hrev) ?_
    rw [raise_true]
    have hsettle : ∀ p : Bool, settle p (max rev (min r vis), true) =
        (if max rev (min r vis) = .m ∧ p then .y else max rev (min r vis), true) := by
      intro p
      unfold settle
      split <;> rfl
    simp only [hsettle, Prod.mk.injEq, and_true]
    by_cases hle : max rev b ≤ max vis rev
    · rcases settled_again hv hle hval' with hsame | ⟨hm, p, hp, he⟩
      · exact .inl hsame
      · exact .inr ⟨hm, p, keep (promotes_agree (R := .keeps _) hch) hp, he⟩
    · -- a default of `y` above visibility `m`, which an imply promotes
      obtain ⟨rfl, rfl, hrev'⟩ : vis = .m ∧ b = .y ∧ rev ≠ .y := by
        revert hle hv
        cases rev <;> cases b <;> cases vis <;> decide
      rw [Tri.max_y] at hval' hle
      obtain rfl : r = .y := by
        rcases hval' with ⟨-, he⟩ | ⟨p, -, he⟩
        · exact he
        · rwa [if_neg (by simp)] at he
      have hmax : max rev .m = .m := by
        revert hrev'
        cases rev <;> decide
      have hnone : u.tri x = none := by
        cases hx : u.tri x with
        | none => rfl
        | some v =>
          have hy : Tri.y = min v .m := hset v hx
          exact absurd (hy.le.trans (min_le_right v .m)) (by decide)
      have hweak' : Gives (K.rule u) (K.exprValue u s.weakRevDep) .y := by
        refine (h.expressible.default x s .m rev _ hs hk hnone (gives_rule.mpr ⟨n, hvis⟩) hv
          hrev.of_table hval).resolve_left fun hle' => ?_
        rw [max_comm, hmax] at hle'
        exact absurd hle' (by decide)
      obtain ⟨weak, hw⟩ := hweak hnone
      obtain rfl := hw.of_table.unique hweak'
      have hprom : Gives (value (K.rule u) n).rules (K.promotes u s) true := by
        refine gives_bind.mpr ⟨.tristate, symType_of_vis_m hs (gives_value hvis), ?_⟩
        exact gives_bind.mpr ⟨.y, hw, gives_done.mpr rfl⟩
      rw [Tri.y_min, hmax]
      exact .inr ⟨rfl, true, keep (promotes_agree (R := .keeps _) hch) hprom, rfl⟩

/-- A symbol of a choice. -/
theorem triChoice_keeps (h : K.Reloaded u u' m top) (hs : K.sym x = some s) (hk : s.choice = some k)
    (ht : s.origType.isBoolTristate) (hvis : value (K.rule u) n (.vis (.sym x)) = some vis) :
    Query.Keeps (value (K.rule u) n) (triChoice u x k vis) (triChoice u' x k vis) := by
  intro r hr
  have hval : Gives (K.rule u) (K.rule u (.tri x)) r := by
    simp only [Config.rule, hs, Option.elim_some, triRule, if_pos ht, hk]
    exact gives_ask.mpr ⟨vis, gives_rule.mpr ⟨n, hvis⟩, n, hr⟩
  unfold triChoice at hr ⊢
  by_cases hy : vis = .y
  · rw [if_pos hy] at hr ⊢
    exact hr
  · rw [if_neg hy] at hr ⊢
    by_cases hn : vis = .n
    · rw [if_neg (by simp [hn])] at hr ⊢
      exact hr
    · -- the user value of a symbol that is visible in m mode is its value
      split at hr
      · obtain rfl := Option.some.inj hr
        rw [h.tri_eq hs ht hval, if_pos ⟨hn, by decide⟩]
        rfl
      · obtain rfl := Option.some.inj hr
        rw [decide_eq_true hn] at hval ⊢
        rw [h.tri_eq hs ht hval, if_neg (by simp)]
        rfl

/-- `tri_value` -/
theorem triRule_keeps (h : K.Reloaded u u' m top) (n : ℕ) (hs : K.sym x = some s) :
    Query.Keeps (value (K.rule u) n) (K.triRule u x s) (K.triRule u' x s) := by
  unfold triRule
  split
  · next ht =>
    refine .ask fun vis hvis => ?_
    simp only [Query.bind]
    split
    · next hk => exact triFree_keeps h hs hk ht hvis
    · next k hk => exact triChoice_keeps h hs hk ht hvis
  · exact fun _ hr => hr

/-! ## Text values -/

/-- A symbol without a prompt is not visible. -/
theorem vis_of_no_prompt (hs : K.sym x = some s) (hp : s.prompts = [])
    (h : Gives rule (K.visibility u (.sym x)) v) : v = .n := by
  simp only [visibility, hs, hp, maxValue, Query.pure_eq, Query.done_bind] at h
  obtain ⟨b, -, h⟩ := gives_bind.mp h
  cases b <;> exact (gives_done.mp h).symm

/-- The value by default of a visible symbol is written. -/
theorem textDefault_snd {p : Text × Bool} (hv : vis ≠ .n) (h : Gives rule (K.textDefault u s vis) p) :
    p.2 = true := by
  obtain ⟨d, -, h⟩ := gives_bind.mp h
  rw [← gives_done.mp h]
  simp [hv]

theorem numDefault_snd {p : Text × Bool} {range : Option (ℤ × ℤ)} (hv : vis ≠ .n)
    (h : Gives rule (K.numDefault u s range vis) p) : p.2 = true := by
  obtain ⟨d, -, h⟩ := gives_bind.mp h
  rw [← gives_done.mp h]
  simp [hv]

/-- The loaded text of a visible symbol. -/
theorem Reloaded.str_eq {p : Text × Bool} (h : K.Reloaded u u' m top) (hs : K.sym x = some s)
    (ht : s.origType.isBoolTristate = false) (hty : s.origType ≠ .unknown)
    (hvis : Gives (K.rule u) (K.rule u (.vis (.sym x))) vis) (hv : vis ≠ .n)
    (hp : Gives (K.rule u) (K.textOrNum u x s vis) p) (hw : p.2 = true) :
    u'.str x = if UserValue.valid s.origType (.str p.1) then some p.1 else none := by
  have hopt : s.envVar = none ∧ K.defconfigList ≠ some x := by
    by_contra hopt
    refine hv (vis_of_no_prompt hs (h.finalized.hidden x s hs ?_) hvis)
    by_cases he : s.envVar = none
    · exact .inr (not_not.mp fun hd => hopt ⟨he, hd⟩)
    · exact .inl he
  have hval : Gives (K.rule u) (K.rule u (.str x)) p := by
    simp only [Config.rule, hs, Option.elim_some, strRule, ht, hty, Bool.false_eq_true, if_false]
    refine gives_ask.mpr ⟨vis, hvis, ?_⟩
    change Gives (K.rule u) (K.textOrNum u x s vis >>= fun v => pure (v.1, _)) p
    exact gives_bind.mpr ⟨p, hp, gives_done.mpr (by simp [hopt])⟩
  rw [h.restores.str x s hs ht, strEntry_eq rfl hs ht (h.restores.known x s hs) hval]
  simp [hw]

theorem textOrNum_keeps (h : K.Reloaded u u' m top) (hs : K.sym x = some s)
    (ht : s.origType.isBoolTristate = false) (hty : s.origType ≠ .unknown)
    (hvis : value (K.rule u) n (.vis (.sym x)) = some vis) :
    Query.Keeps (value (K.rule u) n) (K.textOrNum u x s vis) (K.textOrNum u' x s vis) := by
  have hch := choiceTri_keeps h n
  by_cases hv : vis = .n
  · rw [hv, textOrNum_n, textOrNum_n]
    split
    · exact textDefault_agree (R := .keeps _) hch
    · exact Query.Keeps.bind (activeRange_agree (R := .keeps _) hch) fun range _ =>
        numDefault_agree (R := .keeps _) hch
  · intro p hp
    have hu' := h.str_eq hs ht hty (gives_rule.mpr ⟨n, hvis⟩) hv ⟨n, hp⟩
    unfold textOrNum at hp ⊢
    split
    · next hstr =>
      rw [if_pos hstr] at hp
      have hw : p.2 = true := by
        unfold textRule at hp
        split at hp
        · rw [if_pos hv] at hp
          rw [← Option.some.inj hp]
        · exact textDefault_snd hv ⟨n, hp⟩
      rw [textRule, hu' hw, hstr]
      simp only [UserValue.valid, if_true, if_pos hv, Query.pure_eq, Query.eval_done, Option.some.injEq]
      exact Prod.ext rfl hw.symm
    · next hstr =>
      rw [if_neg hstr] at hp
      unfold numRule at hp ⊢
      rw [Query.eval_bind] at hp ⊢
      obtain ⟨range, hrange, hp⟩ := Option.bind_eq_some_iff.mp hp
      rw [activeRange_agree (R := .keeps _) hch range hrange, Option.bind_some]
      have keep : (K.numDefault u s range vis).eval (value (K.rule u) n) = some p →
          (K.numDefault u' s range vis).eval (value (K.rule u) n) = some p :=
        fun hd => numDefault_agree (R := .keeps _) hch p hd
      -- the value comes from the user and is valid, or by default
      have hfrom : (K.numDefault u s range vis).eval (value (K.rule u) n) = some p ∨
          p.2 = true ∧ UserValue.valid s.origType (.str p.1) ∧ p.1 ≠ [] ∧
            clamp range (toNum (typeToBase s.origType) p.1) = none := by
        split at hp
        · next t hx =>
          split at hp
          · next hcond =>
            obtain rfl := Option.some.inj hp
            exact .inr ⟨rfl, h.validTexts x s t hs hx, hcond.2⟩
          · exact .inl hp
        · exact .inl hp
      have hw : p.2 = true := hfrom.elim (fun hd => numDefault_snd hv ⟨n, hd⟩) And.left
      rw [hu' hw]
      by_cases hval : UserValue.valid s.origType (.str p.1)
      · rw [if_pos hval]
        dsimp only
        split
        · exact congrArg some (Prod.ext rfl hw.symm)
        · next hcond =>
          exact keep (hfrom.resolve_right fun hr => hcond ⟨hv, hr.2.2⟩)
      · rw [if_neg hval]
        exact keep (hfrom.resolve_right fun hr => hval hr.2.1)

/-- `str_value` -/
theorem strRule_keeps (h : K.Reloaded u u' m top) (n : ℕ) (hs : K.sym x = some s) :
    Query.Keeps (value (K.rule u) n) (K.strRule u x s) (K.strRule u' x s) := by
  unfold strRule
  split
  · exact fun _ hr => hr
  · next ht =>
    split
    · exact fun _ hr => hr
    · next hty =>
      refine .ask fun vis hvis => ?_
      exact (textOrNum_keeps h hs (Bool.eq_false_of_not_eq_true ht) hty hvis).bind fun p _ _ hp => hp

/-! ## Selections -/

/-- What a choice in y mode has selected is visible. -/
theorem selectionRule_keeps (h : K.Reloaded u u' m top) (n k : ℕ) :
    Query.Keeps (value (K.rule u) n) (K.selectionRule u k) (K.selectionRule u' k) := by
  have hch := choiceTri_keeps h n
  intro sel hsel
  cases hc : K.choices[k]? with
  | none => simpa only [selectionRule, hc] using hsel
  | some c =>
    obtain ⟨-, hown⟩ := h.finalized.choice k c hc
    have hsel₁ := hsel
    simp only [selectionRule, hc] at hsel₁ ⊢
    rw [Query.eval_bind] at hsel₁ ⊢
    obtain ⟨M, hM, hsel₁⟩ := Option.bind_eq_some_iff.mp hsel₁
    rw [hch k M hM, Option.bind_some]
    by_cases hy : M = .y
    · subst hy
      rw [if_neg (by simp)] at hsel₁ ⊢
      have hmode : Gives (K.rule u) (K.choiceTri u k) .y := ⟨n, hM⟩
      have hselection : Gives (K.rule u) (K.rule u (.selection k)) sel := ⟨n, hsel⟩
      by_cases hsh : ∃ x, K.Shows (value (K.rule u) m) k x .y
      · obtain ⟨x, hsh⟩ := hsh
        obtain rfl := hselection.unique (selection_of_shows rfl h.finalized hsh)
        rw [(h.restores.shows k x .y hsh).2 rfl]
        rcases selection_spec h.finalized.toConsistent h.selects hc hown (gives_table.mpr hM)
          (gives_table.mpr hsel) with ⟨y, -, he, v, hv, hvis⟩ | ⟨he, -⟩
        · obtain rfl := Option.some.inj he
          obtain ⟨s, hs, -⟩ := hsh
          rw [← gives_table]
          refine gives_bind.mpr ⟨v, ?_, ?_⟩
          · rw [atomVis, hs]
            exact gives_ask.mpr ⟨v, hvis, gives_done.mpr rfl⟩
          · rw [if_pos hv]
            exact gives_done.mpr rfl
        · cases he
      · have hnone : u'.selected k = none := by
          refine (h.restores.rest k (List.getElem?_eq_some_iff.mp hc).1 fun x t hx => ?_).2
          obtain rfl := hmode.unique (mode_of_shows rfl h.finalized hx)
          exact hsh ⟨x, hx⟩
        rw [hnone]
        have defaults := selectionFromDefaults_agree (R := .keeps _) (c := c) hch sel
        split at hsel₁
        · exact defaults hsel₁
        · next z hz =>
          rw [Query.eval_bind] at hsel₁
          obtain ⟨v, hv, hsel₁⟩ := Option.bind_eq_some_iff.mp hsel₁
          split at hsel₁
          · -- a selection of the user that is visible is `y`, and shows the mode
            next hn =>
            obtain rfl := Option.some.inj hsel₁
            obtain ⟨c', hc', hmem⟩ := h.selects k z hz
            obtain rfl := Option.some.inj (hc.symm.trans hc')
            obtain ⟨s, hs, hk, ht⟩ := hown z hmem
            have hknown := h.restores.known z s hs
            obtain ⟨⟨val, w⟩, hval⟩ := Option.isSome_iff_exists.mp hknown
            obtain ⟨t, htri, -⟩ := gives_str_tri hs ht (gives_of_table rfl hval)
            obtain ⟨vis, hvis, hy, -⟩ := tri_spec hs hk ht htri
            have hvis' := (gives_atomVis hs (gives_table.mpr hv)).of_table_rules
            obtain rfl := hvis.unique hvis'
            obtain ⟨sel', hsel', he⟩ := hy ((vis_of_yMode hs hk hmode hvis).resolve_left hn)
            obtain rfl := hselection.unique hsel'
            rw [if_pos rfl] at he
            obtain rfl : t = .y := he
            exact absurd ⟨z, shows_of_value rfl hs hk ht hknown htri Tri.noConfusion⟩ hsh
          · exact defaults hsel₁
    · rw [if_pos hy] at hsel₁ ⊢
      exact hsel₁

/-! ## Everything else -/

/-- **Under the loaded user values every attribute is calculated as before.** -/
theorem rule_keeps (h : K.Reloaded u u' m top) (n : ℕ) (d : Cell) :
    Query.Keeps (value (K.rule u) n) (K.rule u d) (K.rule u' d) :=
  rule_agree (R := .keeps _) (choiceTri_keeps h n) (selectionRule_keeps h n)
    (fun _ _ => triRule_keeps h n) (fun _ _ => strRule_keeps h n) d

end Config

end Kconfig

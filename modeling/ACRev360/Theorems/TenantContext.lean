import ACRev360.Services.Tenancy

namespace ACRev360

variable {ε ρ : Type} {council own : CouncilId} {s : Setting CouncilId} {h view : Handler ε ρ}

namespace TenantEvent

-- The block leaves the council that was set before it, and the query runs under the council of its own
-- block.
def Restored : TenantEvent → Prop
  | query own seen        => seen = own
  | left _ before after _ => after = before

-- The block does not end normally, unless its council was set before it.
def Harmless : TenantEvent → Prop
  | query ..                      => True
  | left council before _ returned => returned → council = before

end TenantEvent

open TenantEvent

namespace Ran

@[simp]
theorem after_log {l : List TenantEvent} {r : Ran ε ρ} : (r.after l).log = l ++ r.log := rfl

@[simp]
theorem after_setting {l : List TenantEvent} {r : Ran ε ρ} : (r.after l).setting = r.setting := rfl

end Ran

namespace Setting

variable {V : Type} {s : Setting V} {v : V}

@[simp]
theorem save_release : s.save.release = s := rfl

@[simp]
theorem save_restore : s.save.restore = s := rfl

@[simp]
theorem save_setLocal_restore : (s.save.setLocal v).restore = s := rfl

@[simp]
theorem save_setLocal_release : (s.save.setLocal v).release = s.setLocal v := rfl

end Setting

-- Blocks are closed in the order in which they are opened, so what is remembered outside of the handler
-- stays.
theorem Handler.exec_saved : (h.exec own s).setting.saved = s.saved := by
  induction h generalizing own s with
  | ret r => rfl
  | raise e => rfl
  | query k hi => exact hi _
  | atomic body k hb hi =>
    simp only [exec]
    split
    · simp [hi, Setting.release, hb, Setting.save]
    · simp [Setting.restore, hb, Setting.save]
  | councilContext c body k hb hi =>
    simp only [exec]
    split
    · simp [hi, Setting.release, hb, Setting.save, Setting.setLocal]
    · simp [Setting.restore, hb, Setting.save, Setting.setLocal]
  | attempt body k hb hi =>
    simp only [exec, Ran.after_setting]
    rw [hi, hb]

-- Blocks leave what they find just if those that end normally are of the council that was set before
-- them, and if they do, the setting is in the end what it was.
theorem Handler.restored_iff (ho : s.value = own) :
    ((∀ e ∈ (h.exec own s).log, e.Restored) ↔ ∀ e ∈ (h.exec own s).log, e.Harmless) ∧
    ((∀ e ∈ (h.exec own s).log, e.Restored) → (h.exec own s).setting = s) := by
  induction h generalizing own s with
  | ret r => simp [exec]
  | raise e => simp [exec]
  | query k hi =>
    have ⟨hiff, hs⟩ := hi s.value ho
    simp only [exec, Ran.after_log, List.forall_mem_append, List.forall_mem_singleton, Ran.after_setting]
    exact ⟨and_congr (iff_of_true ho trivial) hiff, fun h => hs h.2⟩
  | atomic body k hb hi =>
    have ⟨hbiff, hbs⟩ := hb (s := s.save) ho
    simp only [exec]
    split
    case h_1 r _ =>
      simp only [Ran.after_log, List.forall_mem_append, Ran.after_setting]
      by_cases hr : ∀ e ∈ (body.exec own s.save).log, e.Restored
      case pos =>
        have ⟨hiff, hs⟩ := hi r ho
        rw [hbs hr, Setting.save_release]
        exact ⟨and_congr hbiff hiff, fun h => hs h.2⟩
      case neg => exact ⟨iff_of_false (fun h => hr h.1) fun h => hr <| hbiff.mpr h.1, fun h => absurd h.1 hr⟩
    case h_2 => exact ⟨hbiff, fun h => by rw [hbs h, Setting.save_restore]⟩
  | councilContext c body k hb hi =>
    have ⟨hbiff, hbs⟩ := @hb c (s.save.setLocal c) rfl
    simp only [exec]
    split
    case h_1 r _ =>
      simp only [Ran.after_log, List.forall_mem_append, List.forall_mem_singleton, Ran.after_setting]
      by_cases hr : ∀ e ∈ (body.exec c (s.save.setLocal c)).log, e.Restored
      case neg => exact ⟨iff_of_false (fun h => hr h.1.1) fun h => hr <| hbiff.mpr h.1.1, fun h => absurd h.1.1 hr⟩
      case pos =>
        -- The council of the block is what it leaves behind.
        rw [hbs hr, Setting.save_setLocal_release]
        by_cases hc : c = s.value
        case pos =>
          subst hc
          have ⟨hiff, hs⟩ := hi r ho
          refine ⟨and_congr (and_congr hbiff ?_) hiff, fun h => hs h.2⟩
          simp [Restored, Harmless, Setting.setLocal]
        case neg =>
          have hleft : ¬(TenantEvent.left c s.value (s.setLocal c).value true).Restored := hc
          exact ⟨iff_of_false (fun h => hleft h.1.2) fun h => hc <| h.1.2 rfl, fun h => absurd h.1.2 hleft⟩
    case h_2 =>
      simp only [List.forall_mem_append, List.forall_mem_singleton]
      have hback : (body.exec c (s.save.setLocal c)).setting.restore.value = s.value := by
        rw [Setting.restore, exec_saved]
        rfl
      exact ⟨and_congr hbiff (iff_of_true hback nofun), fun h => by rw [hbs h.1, Setting.save_setLocal_restore]⟩
  | attempt body k hb hi =>
    have ⟨hbiff, hbs⟩ := hb ho
    simp only [exec, Ran.after_log, List.forall_mem_append, Ran.after_setting]
    by_cases hr : ∀ e ∈ (body.exec own s).log, e.Restored
    case pos =>
      have ⟨hiff, hs⟩ := hi (body.exec own s).out ho
      rw [hbs hr]
      exact ⟨and_congr hbiff hiff, fun h => hs h.2⟩
    case neg => exact ⟨iff_of_false (fun h => hr h.1) fun h => hr <| hbiff.mpr h.1, fun h => absurd h.1 hr⟩

-- The end of the transaction gives the session back as it was.
theorem serveUnder_setting : (serveUnder council view s).setting = s := by
  rw [serveUnder, Setting.restore, Handler.exec_saved]
  rfl

-- In a request, whatever blocks it nests and runs one after the other, each block leaves the council that
-- was set before it, and each query runs under the council of its own block or of the request, just if each
-- block that ends normally is of the council that was set before it.
theorem council_restored_iff : (∀ e ∈ (serveUnder council view s).log, e.Restored) ↔
    ∀ e ∈ (serveUnder council view s).log, e.Harmless := by
  have hown : (s.save.setLocal council).value = council := rfl
  exact (Handler.restored_iff (h := view) hown).1

-- The lookup of a receipt, which the second of two councils has, and a query after it.
def Sample.receiptLookup : Handler Empty Bool :=
  findAcrossActiveCouncils (fun council => .query fun _ => .ret (council == 2)) id
    (fun _ => .query fun _ => .ret true) [1, 2]

theorem receiptLookup_not_restored :
    ¬∀ e ∈ (serveUnder (some 1) Sample.receiptLookup ⟨none, []⟩).log, e.Restored := by
  intro h
  have hquery : .query (some 1) (some 2) ∈ (serveUnder (some 1) Sample.receiptLookup ⟨none, []⟩).log := by
    decide +kernel
  simpa [Restored] using h _ hquery

end ACRev360

import ACRev360.Services.AuditLog
import ACRev360.Theorems.PlatformScope

namespace ACRev360

open Newest

variable {p : AuditTrail} {icontains : String → String → Bool} {now : Instant} {user : ℕ} {level : AccessLevel}
variable {q : Option String} {s : Setting CouncilId} {council : ℕ} {x : ℕ × AuditLog}

-- The events of the councils that are accessible to the user, as far as they are searched for.
def AuditTrail.Readable (p : AuditTrail) (icontains : String → String → Bool) (now : Instant) (user : ℕ)
    (level : AccessLevel) (q : Option String) (x : ℕ × AuditLog) : Prop :=
  p.events.get x.1 = some x.2 ∧ x.2.council ∈ p.accessibleCouncilIds now user level ∧ p.matchesQ icontains q x.2

-- No two events have been created at the same time.
def AuditTrail.Apart (p : AuditTrail) : Prop :=
  ∀ ⦃i j r r'⦄, p.events.get i = some r → p.events.get j = some r' → r.createdAt = r'.createdAt → i = j

def AuditTrail.ofCouncil (p : AuditTrail) (icontains : String → String → Bool) (q : Option String) (council : ℕ) :
    List (ℕ × AuditLog) :=
  p.events.filter fun _ r => r.council = council && p.matchesQ icontains q r

theorem mem_ofCouncil : x ∈ p.ofCouncil icontains q council ↔
    p.events.get x.1 = some x.2 ∧ x.2.council = council ∧ p.matchesQ icontains q x.2 := by
  rw [AuditTrail.ofCouncil, Table.mem_filter_iff, Bool.and_eq_true, decide_eq_true_eq]

theorem perCouncil_eq : p.perCouncil icontains q council (some council) =
    newest (·.2.createdAt) 300 (p.ofCouncil icontains q council) := by
  rw [AuditTrail.perCouncil, AuditTrail.ofCouncil]
  congr 2
  funext _ r
  by_cases h : r.council = council <;> simp [h, Ne.symm]

theorem getQueryset_out : (serveUnder none (p.getQueryset icontains now user level none q) s).out =
    .ok (newest (·.2.createdAt) 300 ((p.accessibleCouncilIds now user level).map fun c =>
      newest (·.2.createdAt) 300 (p.ofCouncil icontains q c)).flatten) := by
  refine (platformWideQueryset_out fun _ _ _ _ => rfl).trans ?_
  simp only [perCouncil_eq]
  rfl

theorem mem_flatten_ofCouncil : x ∈ ((p.accessibleCouncilIds now user level).map (p.ofCouncil icontains q)).flatten ↔
    p.Readable icontains now user level q x := by
  simp only [← List.flatMap_def, List.mem_flatMap, mem_ofCouncil]
  constructor
  · rintro ⟨c, hc, hget, rfl, hq⟩
    exact ⟨hget, hc, hq⟩
  · rintro ⟨hget, hc, hq⟩
    exact ⟨_, hc, hget, rfl, hq⟩

theorem createdAt_nodup (hp : p.Apart) :
    (((p.accessibleCouncilIds now user level).map (p.ofCouncil icontains q)).flatten.map (·.2.createdAt)).Nodup := by
  rw [← List.flatMap_def, List.map_flatMap, List.nodup_flatMap]
  refine ⟨fun c _ => ?once, accessibleCouncilIds_nodup.imp fun {c c'} hne => ?apart⟩
  case once =>
    refine List.Nodup.map_on (fun x hx y hy ht => ?_) (List.Nodup.of_map _ Table.keys_nodup)
    have hx := (mem_ofCouncil.mp hx).1
    have hy := (mem_ofCouncil.mp hy).1
    have hk := hp hx hy ht
    exact Prod.ext hk <| Option.some.inj <| hx.symm.trans <| hk ▸ hy
  case apart =>
    intro t ht ht'
    obtain ⟨x, hx, rfl⟩ := List.mem_map.mp ht
    obtain ⟨y, hy, he⟩ := List.mem_map.mp ht'
    obtain ⟨hx, hxc, -⟩ := mem_ofCouncil.mp hx
    obtain ⟨hy, hyc, -⟩ := mem_ofCouncil.mp hy
    have hk := hp hy hx he
    rw [hk, hx] at hy
    exact hne <| hxc.symm.trans <| (Option.some.inj hy) ▸ hyc

-- Of the events of each council only the latest 300 are fetched, and yet the latest 300 of all are there.
theorem auditLog_newest (hp : p.Apart) : ∃ rows,
    (serveUnder none (p.getQueryset icontains now user level none q) s).out = .ok rows ∧
      IsNewest (·.2.createdAt) 300 (p.Readable icontains now user level q) rows := by
  refine ⟨_, getQueryset_out, ?_⟩
  have hmap : (p.accessibleCouncilIds now user level).map (fun c =>
      newest (·.2.createdAt) 300 (p.ofCouncil icontains q c)) =
      ((p.accessibleCouncilIds now user level).map (p.ofCouncil icontains q)).map (newest (·.2.createdAt) 300) := by
    rw [List.map_map]
    rfl
  rw [hmap, newest_flatten (createdAt_nodup hp)]
  simpa only [mem_flatten_ofCouncil] using isNewest_newest (createdAt_nodup hp)

namespace Sample

-- Each of two councils has issued a bill, and the second one has cancelled its bill.
def audited : AuditTrail where
  councils  := Table.empty.insert 1 ⟨true⟩ |>.insert 2 ⟨true⟩
  grants    := Table.empty
  rows _    := Table.empty
  unique    := ungranted
  events    := Table.empty.insert 1 ⟨1, "BILL_ISSUED", "BILL", "1", some 1, 10⟩
    |>.insert 2 ⟨2, "BILL_ISSUED", "BILL", "2", some 2, 20⟩
    |>.insert 3 ⟨2, "BILL_CANCELLED", "BILL", "2", none, 30⟩
  usernames := Table.empty.insert 1 "ngozi" |>.insert 2 "musa"

theorem audited_apart : audited.Apart := by
  intro i j r r' hr hr'
  have hrows : ∀ x ∈ audited.events.rows, ∀ y ∈ audited.events.rows, x.2.createdAt = y.2.createdAt → x.1 = y.1 := by
    decide +kernel
  exact hrows (i, r) (Table.mem_rows_iff.mpr hr) (j, r') (Table.mem_rows_iff.mpr hr')

end Sample

theorem sample_newest : ∃ rows,
    (serveUnder none (Sample.audited.getQueryset (· == ·) 0 7 .superAdmin none (some "BILL_ISSUED")) Sample.unset).out =
      .ok rows ∧ Newest.IsNewest (·.2.createdAt) 300
        (Sample.audited.Readable (· == ·) 0 7 .superAdmin (some "BILL_ISSUED")) rows :=
  auditLog_newest Sample.audited_apart

end ACRev360

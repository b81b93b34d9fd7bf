import Spectra.CutSearch
import Spectra.CutExact
import Spectra.PsiLoop
import Spectra.LevelVectors
import Spectra.CutProbe
import Spectra.Premium
import Spectra.PremiumExact
import Spectra.Dict
import Spectra.Records
import Spectra.Runs
import Spectra.Ground
import Spectra.Envelope
import Spectra.GroundRuns
import Spectra.EnvelopeRuns
import Spectra.Goal
import Spectra.Bracket
import Spectra.Json
import Spectra.JsonText
import Spectra.Checker
import Spectra.Accepted
import Spectra.Admissible
import Spectra.Blake2b
import Spectra.Standard
import Spectra.Render
import Spectra.Closure
import Spectra.Licences
import Spectra.WitnessTrees
import Spectra.Identifiers
import Spectra.Bundle
import Spectra.Scf
import Spectra.Ingest
import Spectra.Sealing
import Spectra.BundleReader
import Spectra.CertificateFile
import Spectra.Minimality
import Spectra.HonestLabels
import Spectra.Verdict
import Spectra.Agreement
import Spectra.Naive
import Spectra.Saturation
import Spectra.ProveStage
import Spectra.BitLock
import Spectra.Blindness
import Spectra.LivenessDocument
import Spectra.Grants
import Spectra.Preimages
import Spectra.Obligations
import Spectra.SearchLabels
import Spectra.LivenessBuild
import Spectra.Instants
import Spectra.LiveMeaning
import Spectra.Independence
import Spectra.SealedSources
import Spectra.MissingRecords
import Spectra.Encodes
import Spectra.LivenessLicences
import Spectra.BlindWindows
import Spectra.LicenceAgreement
import Spectra.Derivations
import Spectra.Covers
import Spectra.CutCanonical
import Spectra.Lines
import Spectra.Raising
import Spectra.Groups
import Spectra.Candidates
import Spectra.EventWidths
import Spectra.IdentityBytes
import Spectra.Sealable
import Spectra.IngestRuns
import Spectra.Arrivals
import Spectra.JsonGrammar
import Spectra.Contamination
import Spectra.ReadBundle
import Spectra.ProfileFile
import Spectra.ProfileBuild
import Spectra.Tally
import Spectra.Resolve
import Spectra.RoleRows
import Spectra.ByContent
import Spectra.Totality
import Spectra.Corrections
import Spectra.SubsetMinimal
import Spectra.PremiumSets
import Spectra.CutOrder
import Spectra.CatalogTable
import Spectra.CutStability
import Spectra.Junctions
import Spectra.Guards
import Spectra.GuardForms
import Spectra.GuardMeaning
import Spectra.GuardRuns
import Spectra.GuardTotal
import Spectra.GuardBytes
import Spectra.WitnessNodes
import Spectra.Lexer
import Spectra.GuardParser
import Spectra.Pruning
import Spectra.CtlGuards
import Spectra.BlockerMasks
import Spectra.VertexCover
import Spectra.Restoring
import Spectra.OrderStatistic
import Spectra.Absence
import Spectra.Volumes
import Spectra.RawStream
import Spectra.Degrade
import Spectra.Nesting
import Spectra.Forgery
import Spectra.Scenario
import Spectra.Generator
import Spectra.Accounting
import Spectra.Voiding
import Spectra.AbsenceBracket
import Spectra.Ids
import Spectra.CutMasks
import Spectra.LockStage
import Spectra.Statuses
import Spectra.SelfChecks
import Spectra.HashChain
import Spectra.SealCommits
import Spectra.Query
import Spectra.Store
import Spectra.StoreRuns
import Spectra.StoreAnswers
import Spectra.StoreBundles
import Spectra.Unreported
import Spectra.BodyChecks
import Spectra.WrittenBody

import PantsIde.PosixPath
import PantsIde.Filesystem
import PantsIde.Target
import PantsIde.Project
import PantsIde.Analyze
import PantsIde.Closure
import PantsIde.IdeGen
import PantsIde.SourceSets
import PantsIde.Unexcludable
import PantsIde.Excludes
import PantsIde.Materialize
import PantsIde.Aggregate
import PantsIde.Execute
